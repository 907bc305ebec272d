import FishServer.JsonBuilderLength
import FishServer.JsonContent

namespace FishServer

open BlockHeap LinkTree Transition

inductive Stores (h : Heap JsonNode) : Option ℕ → Content → Prop
  | nil : Stores h none .nil
  | string {p : ℕ} {f : JsonNode} {key : AlnumKey} {value : TextValue} {next : Content} :
    h.block p = some f → f.key = key.text → f.value = .string value.text → Stores h f.next next →
      Stores h (some p) (.string key value next)
  | inter {p : ℕ} {f : JsonNode} {key : AlnumKey} {n : ℤ} {next : Content} :
    h.block p = some f → f.key = key.text → f.value = .inter n → Stores h f.next next →
      Stores h (some p) (.inter key n next)
  | object {p q : ℕ} {f : JsonNode} {key : AlnumKey} {inner next : Content} :
    h.block p = some f → f.key = key.text → f.value = .node (some q) → Stores h (some q) inner →
      Stores h f.next next → Stores h (some p) (.object key inner next)

/-- A C string of at most `n` bytes with its NUL. None is a byte that was not written, or no NUL. -/
def readText (buf : Buf) : ℕ → ℕ → Option CStr
  | 0, _ => none
  | n + 1, i => (buf i).bind (fun c => if c = '\x00' then some [] else (readText buf n (i + 1)).map (c :: ·))

def JsonText.string (text : JsonText) : Option CStr := readText text.buf text.len 0

/-- `parseString` gets the content back from the text that `toJson` makes of it. -/
def Builder.Agrees (heap : ℕ → Option Char) (b : Builder) (c : Content) : Prop :=
  ∃ text s, b.toJson = some text ∧ text.string = some s ∧ Builds c.tree (parseString heap s)

section

variable {h : Heap JsonNode} {f : JsonNode} {key : AlnumKey}

theorem keyText_printed (hs : f.Sized h) (hk : f.key = key.text) : f.keyText = key.printed.map some := by
  unfold JsonNode.keyText AlnumKey.printed cut
  rw [hs.key, hk]
  split_ifs
  · simp only [List.map_cons, List.map_append, List.map_nil]
  · rfl

theorem stores_head {c : Content} {q : ℕ} (h' : Stores h (some q) c) : isListAt h (some q) = false := by
  cases h' with
  | string hf _ hv _ | inter hf _ hv _ | object hf _ hv _ _ => simp [isListAt, hf, JsonNode.isList, hv]

theorem chainText_stored {p : ℕ} {c n : Shape} {next : Content} (hf : h.block p = some f)
    (hnext : Stores h f.next next) (hspan : Spans (childOf h) (nextOf h) f.next n)
    (ht : chainText h n = next.text.map some) : chainText h (.node p c n) =
      f.keyText ++ f.valueText h (chainText h c) ++ (next.comma ++ next.text).map some := by
  cases hq : f.next with
  | none =>
    rw [hq] at hnext hspan
    cases hnext
    obtain rfl := hspan.of_none
    rw [chainText_last hf]
    exact (List.append_nil _).symm
  | some q =>
    rw [hq] at hnext hspan
    obtain ⟨c', n', rfl⟩ := hspan.of_some
    have hcomma : next.comma = [','] := by cases hnext <;> rfl
    rw [chainText_next hf, ht, hcomma]
    simp only [List.append_assoc, List.map_append, List.map_cons, List.map_nil]

theorem stored_text (hs : ∀ q g, h.block q = some g → g.Sized h) {p : Option ℕ} {c : Content} (hc : Stores h p c)
    {s : Shape} (hspan : Spans (childOf h) (nextOf h) p s) : chainText h s = c.text.map some := by
  induction hc generalizing s with
  | nil =>
    obtain rfl := hspan.of_none
    rfl
  | string hf hk hv hn ih =>
    cases hspan with
    | node hsc hsn =>
      rw [nextOf, hf, Option.bind_some] at hsn
      have hsized := hs _ _ hf
      rw [chainText_stored hf hn hsn (ih hsn), keyText_printed hsized hk]
      simp only [JsonNode.valueText, hv, hsized.string _ hv, Content.text, cut, List.map_append, List.map_cons,
        List.append_assoc, List.cons_append, List.nil_append]
  | inter hf hk hv hn ih =>
    cases hspan with
    | node hsc hsn =>
      rw [nextOf, hf, Option.bind_some] at hsn
      have hsized := hs _ _ hf
      rw [chainText_stored hf hn hsn (ih hsn), keyText_printed hsized hk]
      simp only [JsonNode.valueText, hv, hsized.inter _ hv, List.take_length, Content.text, List.map_append,
        List.append_assoc]
  | object hf hk hv hi hn ihi ih =>
    cases hspan with
    | node hsc hsn =>
      rw [childOf, hf, Option.bind_some, JsonNode.child, hv] at hsc
      rw [nextOf, hf, Option.bind_some] at hsn
      have hsized := hs _ _ hf
      rw [chainText_stored hf hn hsn (ih hsn), keyText_printed hsized hk, ihi hsc]
      simp only [JsonNode.valueText, hv, stores_head hi, Bool.false_eq_true, if_false, Content.text, List.map_append,
        List.map_cons, List.append_assoc, List.cons_append, List.nil_append]

end

/-! The text as a string. -/

theorem readText_eq {buf : Buf} {l : CStr} {i : ℕ} (hnul : '\x00' ∉ l)
    (hl : ∀ j ≤ l.length, buf (i + j) = (l ++ ['\x00'])[j]?) (n : ℕ) :
    readText buf n i = if l.length < n then some l else none := by
  induction l generalizing i n with
  | nil =>
    have h0 : buf i = some '\x00' := hl 0 le_rfl
    cases n with
    | zero => rfl
    | succ n =>
      rw [readText, h0]
      rfl
  | cons c l ih =>
    rw [List.mem_cons, not_or] at hnul
    have h0 : buf i = some c := hl 0 (Nat.zero_le _)
    cases n with
    | zero => rfl
    | succ n =>
      have hrest : ∀ j ≤ l.length, buf (i + 1 + j) = (l ++ ['\x00'])[j]? := by
        intro j hj
        have hj' := hl (j + 1) (by rw [List.length_cons]; omega)
        rw [List.cons_append, List.getElem?_cons_succ] at hj'
        rw [← hj', Nat.add_assoc, Nat.add_comm 1 j]
      rw [readText, h0, Option.bind_some, if_neg (Ne.symm hnul.1), ih hnul.2 hrest, List.length_cons]
      by_cases hlt : l.length < n
      · rw [if_pos hlt, if_pos (by omega)]
        rfl
      · rw [if_neg hlt, if_neg (by omega)]
        rfl

theorem lay_reads (l : CStr) (j : ℕ) : Buf.lay (fun _ => none) 0 (l.map some) j = l[j]? := by
  rw [Buf.lay, if_pos (Nat.zero_le j), Nat.sub_zero, List.getElem?_map]
  cases l[j]? <;> rfl

theorem printed_noNul (c : Content) : '\x00' ∉ c.printed := by
  have hcut : ∀ s : CStr, '\x00' ∉ s → '\x00' ∉ cut s := fun s hs hm => hs (List.mem_of_mem_take hm)
  have hkey : ∀ key : AlnumKey, '\x00' ∉ key.printed := by
    intro key hm
    have hk : '\x00' ∉ cut key.text := by
      apply hcut
      intro hm
      have ha := key.alnum _ hm
      revert ha
      decide
    unfold AlnumKey.printed at hm
    split_ifs at hm
    · simp [hk] at hm
    · cases hm
  have hnum : ∀ n, '\x00' ∉ Printf.decimal n := by
    intro n hm
    have hd : '\x00' ∉ Nat.toDigits 10 n.natAbs := by
      intro hm
      have ha : ('\x00').isDigit = true := Nat.isDigit_of_mem_toDigits (by decide) (by decide) hm
      revert ha
      decide
    unfold Printf.decimal at hm
    split_ifs at hm
    · simp [hd] at hm
    · exact hd hm
  have hcomma : ∀ c : Content, '\x00' ∉ c.comma := by
    intro c
    cases c <;> simp [Content.comma]
  have htext : '\x00' ∉ c.text := by
    induction c with
    | nil => exact List.not_mem_nil
    | string key value next ih => simp [Content.text, hkey, hcut _ value.noNul, hcomma, ih]
    | inter key n next ih => simp [Content.text, hkey, hnum, hcomma, ih]
    | object key inner next ihi ih => simp [Content.text, hkey, hcomma, ihi, ih]
  cases c with
  | nil => simp [Content.printed]
  | string | inter | object => simpa [Content.printed] using htext

section

variable {b : Builder} {s : Shape} {c : Content}

theorem printed_length (hc : Stores b.heap b.addhead c)
    (hspan : Spans (childOf b.heap) (nextOf b.heap) b.addhead s) (ht : chainText b.heap s = c.text.map some) :
    c.printed.length = chainSpan b.heap s + 1 := by
  cases hh : b.addhead with
  | none =>
    rw [hh] at hc hspan
    cases hc
    obtain rfl := hspan.of_none
    rfl
  | some q =>
    rw [hh] at hc hspan
    obtain ⟨c', n', rfl⟩ := hspan.of_some
    have hp : c.printed = '{' :: (c.text ++ ['}']) := by cases hc <;> rfl
    rw [hp, chainSpan_node, ht, List.length_cons, List.length_append, List.length_map, List.length_singleton]

theorem printedText_buf (hc : Stores b.heap b.addhead c)
    (hspan : Spans (childOf b.heap) (nextOf b.heap) b.addhead s) (ht : chainText b.heap s = c.text.map some) :
    (printedText b s).buf = Buf.lay (fun _ => none) 0 ((c.printed ++ ['\x00']).map some) := by
  cases hh : b.addhead with
  | none =>
    rw [hh] at hc hspan
    cases hc
    obtain rfl := hspan.of_none
    have hover : (Buf.put (fun _ => none) 0 '\x7b').put 0 '\x7d' = Buf.put (fun _ => none) 0 '\x7d' :=
      Function.update_idem ..
    simp only [printedText, chainText, chainSpan, lay_nil, hover]
    simp only [put_eq_lay]
    exact lay_append (fun _ => none) 0 [some '\x7d'] [some '\x00']
  | some q =>
    rw [hh] at hc hspan
    obtain ⟨c', n', rfl⟩ := hspan.of_some
    have hp : c.printed = '\x7b' :: (c.text ++ ['\x7d']) := by cases hc <;> rfl
    have hl : (c.printed ++ ['\x00']).map some =
        [some '\x7b'] ++ c.text.map some ++ [some '\x7d'] ++ [some '\x00'] := by
      rw [hp]
      simp
    rw [hl, ← lay_append, ← lay_append, ← lay_append]
    simp only [printedText, chainSpan_node, ht, put_eq_lay, List.length_append, List.length_singleton, List.length_map,
      Nat.zero_add, Nat.add_comm 1 (List.length c.text)]

theorem printedText_string (hc : Stores b.heap b.addhead c)
    (hspan : Spans (childOf b.heap) (nextOf b.heap) b.addhead s) (ht : chainText b.heap s = c.text.map some) :
    (printedText b s).string = if c.printed.length < (printedText b s).len then some c.printed else none := by
  have hbuf : ∀ j ≤ c.printed.length, (printedText b s).buf (0 + j) = (c.printed ++ ['\x00'])[j]? := by
    intro j _
    rw [printedText_buf hc hspan ht, Nat.zero_add, lay_reads]
  rw [JsonText.string, readText_eq (printed_noNul c) hbuf]

end

theorem parse_toJson_iff (heap : ℕ → Option Char) (t : Placed) (hr : Reach Placed.step Placed.once Placed.new t)
    (c : Content) (hc : Stores t.builder.heap t.builder.addhead c) :
    ∃ printed, t.builder.printed = some printed ∧
      (t.builder.Agrees heap c ↔ t.Covered printed ∧ c.Short ∧ c.Clean) := by
  have hs := placed_sound hr
  obtain ⟨s, hspan, hnodup, hlt, hn⟩ := hs.spans
  have ht := stored_text hs.sized hc hspan
  have hstring := printedText_string hc hspan ht
  have hfits : c.printed.length < (printedText t.builder s).len ↔ t.Covered s.nodes := by
    rw [← hs.fits_iff hspan hnodup hlt, printedText_fits, printed_length hc hspan ht]
    exact Iff.rfl
  have hlen : (printedText t.builder s).len < 2 ^ 32 := Nat.mod_lt _ (by norm_num)
  refine ⟨s.nodes, hspan.walk hn, ?_⟩
  constructor
  · rintro ⟨text, string, htext, hread, hb⟩
    obtain rfl := Option.some.inj ((hs.toJson hspan hn).symm.trans htext)
    rw [hstring] at hread
    split_ifs at hread with hf
    obtain rfl := Option.some.inj hread
    exact ⟨hfits.mp hf, (printed_builds_iff heap (hf.trans hlen)).mp hb⟩
  · rintro ⟨hcov, hclean⟩
    have hf := hfits.mpr hcov
    refine ⟨_, c.printed, hs.toJson hspan hn, ?_, (printed_builds_iff heap (hf.trans hlen)).mpr hclean⟩
    rw [hstring, if_pos hf]

def userAndName : List BuilderOp :=
  [.pushInter "id".toList 7 false, .pushNode "user".toList 0 true, .pushString "name".toList "ab".toList true]

def userAndNameContent : Content :=
  .object ⟨"user".toList, by simp, by simp⟩ (.inter ⟨"id".toList, by simp, by simp⟩ 7 .nil)
    (.string ⟨"name".toList, by simp, by simp⟩ ⟨"ab".toList, by simp, by simp⟩ .nil)

theorem parse_userAndName :
    ∃ t, Placed.run userAndName = some t ∧ t.builder.Agrees (fun _ => none) userAndNameContent := by
  have hrun : (Placed.run userAndName).isSome = true := by decide
  have hprinted : (Placed.run userAndName).bind (fun t => t.builder.printed) = some [1, 0, 2] := by decide
  have hcovered : ∀ t ∈ Placed.run userAndName, t.Covered [1, 0, 2] := by
    unfold Placed.Covered
    decide
  have hhead : (Placed.run userAndName).bind (fun t => t.builder.addhead) = some 1 := by decide
  have hid : (Placed.run userAndName).bind (fun t => t.builder.heap.block 0) =
      some ⟨"id".toList, 2, .inter 7, 1, none⟩ := by decide
  have huser : (Placed.run userAndName).bind (fun t => t.builder.heap.block 1) =
      some ⟨"user".toList, 4, .node (some 0), 1, some 2⟩ := by decide
  have hname : (Placed.run userAndName).bind (fun t => t.builder.heap.block 2) =
      some ⟨"name".toList, 4, .string "ab".toList, 2, none⟩ := by decide
  obtain ⟨t, ht⟩ := Option.isSome_iff_exists.mp hrun
  rw [ht, Option.bind_some] at hprinted hhead hid huser hname
  have hstores : Stores t.builder.heap t.builder.addhead userAndNameContent := by
    rw [hhead]
    exact .object huser rfl rfl (.inter hid rfl rfl .nil) (.string hname rfl rfl .nil)
  obtain ⟨printed, hp, hiff⟩ := parse_toJson_iff (fun _ => none) t (Placed.reach_run ht) userAndNameContent hstores
  obtain rfl := Option.some.inj (hp.symm.trans hprinted)
  refine ⟨t, ht, hiff.mpr ⟨hcovered t ht, ?_, ?_⟩⟩
  · simp [userAndNameContent, Content.Short]
  · simp [userAndNameContent, Content.Clean]

-- the quote inside the value ends it
theorem parse_quoted :
    ¬∀ (heap : ℕ → Option Char) (t : Placed) (c : Content), Reach Placed.step Placed.once Placed.new t →
      Stores t.builder.heap t.builder.addhead c → t.builder.Agrees heap c := by
  intro h
  let ops : List BuilderOp := [.pushString "k".toList "a\"b".toList true]
  let c : Content := .string ⟨"k".toList, by simp, by simp⟩ ⟨"a\"b".toList, by simp, by simp⟩ .nil
  have hrun : (Placed.run ops).isSome = true := by decide
  have hhead : (Placed.run ops).bind (fun t => t.builder.addhead) = some 0 := by decide
  have hblock : (Placed.run ops).bind (fun t => t.builder.heap.block 0) =
      some ⟨"k".toList, 1, .string "a\"b".toList, 3, none⟩ := by decide
  have hstring : ((Placed.run ops).bind (fun t => t.builder.toJson)).bind JsonText.string =
      some "\x7b\"k\":\"a\"b\"\x7d".toList := by decide
  have hparse : parseString (fun _ => none) "\x7b\"k\":\"a\"b\"\x7d".toList =
      some (.done (.node "k".toList none .null .null) (some "b\"\x7d".toList)) := by decide
  obtain ⟨t, ht⟩ := Option.isSome_iff_exists.mp hrun
  rw [ht, Option.bind_some] at hhead hblock hstring
  have hstores : Stores t.builder.heap t.builder.addhead c := by
    rw [hhead]
    exact .string hblock rfl rfl .nil
  obtain ⟨text, s, htext, hs, cursor, hb⟩ := h (fun _ => none) t c (Placed.reach_run ht) hstores
  rw [htext, Option.bind_some, hs] at hstring
  obtain rfl := Option.some.inj hstring
  cases hparse.symm.trans hb

end FishServer
