import FishServer.Sha1Refine
import FishServer.Base64

namespace FishServer

def charBytes (s : String) : List Byte := s.toList.map (fun c => BitVec.ofNat 8 c.toNat)

def keyHeader : List Byte := charBytes "Sec-WebSocket-Key:"

def guid : List Byte := charBytes "258EAFA5-E914-47DA-95CA-C5AB0DC85B11"

def strstr (need : List Byte) : List Byte → Option (List Byte)
  | [] => none
  | c :: s => if need.isPrefixOf (c :: s) then some (c :: s) else if c = 0 then none else strstr need s

/-- The loop that copies the key, with the bytes of `sec` it may still fill; none when it reads past the
buffer. -/
def scanKey : ℕ → List Byte → Option (List Byte)
  | _, [] => none
  | room, c :: s =>
    if c = 0x0D#8 ∨ room = 0 then some []
    else if c = 0x20#8 then scanKey room s
    else (scanKey (room - 1) s).map (c :: ·)

inductive HackOut
  | silent
  | pastEnd
  | overflow
  | answer (base64_str upgrade : List Byte)
deriving DecidableEq

def upgrade (base64_str : List Byte) : List Byte :=
  charBytes "HTTP/1.1 101 WebSocket Protocol Handshake\r\n" ++ charBytes "Upgrade: websocket\r\n" ++
    charBytes "Connection: Upgrade\r\n" ++ charBytes "WebSocket-Origin: http://127.0.0.1\r\n" ++
    charBytes "WebSocket-Location: ws://127.0.0.1:1680\r\n" ++ charBytes "Sec-WebSocket-Accept: " ++
    base64_str ++ charBytes "\r\n\r\n"

def acceptOf (stack : ℕ → Byte) (sec : List Byte) : List Byte :=
  let skey := sec.takeWhile (· ≠ 0) ++ guid
  let sha1_buf := (sha1_hash stack skey).getD []
  base64_encode (fun i => sha1_buf.getD i (stack i)) 20

/-- `WebSocket::hack` on the bytes of the buffer from `header` on. A key of fifty bytes puts the closing NUL
of `sec` behind its end. -/
def hack (stack : ℕ → Byte) (header : List Byte) : HackOut :=
  match strstr keyHeader header with
  | none => .silent
  | some key =>
    match scanKey 50 (key.drop 18) with
    | none => .pastEnd
    | some sec =>
      if sec.length = 50 then .overflow
      else .answer (acceptOf stack sec) (upgrade (acceptOf stack sec))

theorem strstr_first {need pre tail : List Byte} (hnul : ∀ c ∈ pre, c ≠ 0) (hneed : need ≠ [])
    (hfirst : ∀ i, i < pre.length → ¬ need <+: (pre ++ (need ++ tail)).drop i) :
    strstr need (pre ++ (need ++ tail)) = some (need ++ tail) := by
  induction pre with
  | nil =>
    obtain ⟨c, rest, rfl⟩ := List.exists_cons_of_ne_nil hneed
    have hhere : (c :: rest).isPrefixOf (c :: (rest ++ tail)) = true :=
      List.isPrefixOf_iff_prefix.mpr (List.prefix_append (c :: rest) tail)
    rw [List.nil_append, List.cons_append, strstr, if_pos hhere]
  | cons c pre ih =>
    have hzero := hfirst 0 (Nat.zero_lt_succ _)
    have hskip : ¬ need.isPrefixOf (c :: (pre ++ (need ++ tail))) = true :=
      fun h => hzero (List.isPrefixOf_iff_prefix.mp h)
    have hrest := ih (fun d hd => hnul d (List.mem_cons_of_mem c hd))
      (fun i hi => hfirst (i + 1) (Nat.succ_lt_succ hi))
    rw [List.cons_append, strstr, if_neg hskip, if_neg (hnul c List.mem_cons_self), hrest]

theorem scanKey_blanks {blanks : List Byte} (s : List Byte) {room : ℕ} (h : ∀ c ∈ blanks, c = 0x20#8)
    (hroom : room ≠ 0) : scanKey room (blanks ++ s) = scanKey room s := by
  induction blanks with
  | nil => rfl
  | cons c blanks ih =>
    have hc : c = 0x20#8 := h c List.mem_cons_self
    have hgo : ¬ (c = 0x0D#8 ∨ room = 0) := by
      rintro (hcr | hfull)
      · rw [hc] at hcr
        exact absurd hcr (by decide)
      · exact hroom hfull
    rw [List.cons_append, scanKey, if_neg hgo, if_pos hc, ih (fun d hd => h d (List.mem_cons_of_mem c hd))]

def KeyByte (c : Byte) : Prop := c ≠ 0x20#8 ∧ c ≠ 0x0D#8 ∧ c ≠ 0

theorem scanKey_key {key : List Byte} (rest : List Byte) {room : ℕ} (h : ∀ c ∈ key, KeyByte c)
    (hroom : key.length < room) : scanKey room (key ++ 0x0D#8 :: rest) = some key := by
  induction key generalizing room with
  | nil =>
    rw [List.nil_append, scanKey, if_pos (Or.inl rfl)]
  | cons c key ih =>
    rw [List.length_cons] at hroom
    obtain ⟨hblank, hcr, -⟩ := h c List.mem_cons_self
    have hgo : ¬ (c = 0x0D#8 ∨ room = 0) := by
      rintro (hend | hfull)
      · exact hcr hend
      · omega
    have hrest : scanKey (room - 1) (key ++ 0x0D#8 :: rest) = some key :=
      ih (fun d hd => h d (List.mem_cons_of_mem c hd)) (by omega)
    rw [List.cons_append, scanKey, if_neg hgo, if_neg hblank, hrest]
    rfl

theorem guid_nul : ∀ c ∈ guid, c ≠ 0 := by decide

theorem takeWhile_nul {s : List Byte} (h : ∀ c ∈ s, c ≠ 0) : s.takeWhile (· ≠ 0) = s := by
  apply List.takeWhile_eq_self_iff.mpr
  intro c hc
  exact decide_eq_true (h c hc)

theorem range_getD (l : List Byte) (f : ℕ → Byte) : (List.range l.length).map (fun i => l.getD i (f i)) = l := by
  apply List.ext_getElem
  · simp
  · intro i hi hl
    rw [List.getElem_map, List.getElem_range, List.getD_eq_getElem _ _ hl]

theorem acceptOf_eq (stack : ℕ → Byte) {key : List Byte} (h : ∀ c ∈ key, c ≠ 0) (hlen : key.length ≤ 49) :
    acceptOf stack key = Base64.encode (Sha1.sha1 (key ++ guid)) := by
  have hskey : ∀ c ∈ key ++ guid, c ≠ 0 := by
    intro c hc
    rcases List.mem_append.mp hc with hmem | hmem
    · exact h c hmem
    · exact guid_nul c hmem
  have hguid : guid.length = 36 := by decide
  have hhash := sha1_hash_eq stack (key ++ guid) (by
    rw [takeWhile_nul hskey, List.length_append, hguid]
    omega)
  unfold acceptOf
  dsimp only
  rw [takeWhile_nul h, hhash, takeWhile_nul hskey, base64_encode_eq]
  exact congrArg Base64.encode (range_getD (Sha1.sha1 (key ++ guid)) stack)

theorem hack_answers (stack : ℕ → Byte) {pre blanks key : List Byte} (rest : List Byte)
    (hnul : ∀ c ∈ pre, c ≠ 0)
    (hfirst : ∀ i, i < pre.length →
      ¬ keyHeader <+: (pre ++ (keyHeader ++ (blanks ++ (key ++ 0x0D#8 :: rest)))).drop i)
    (hblanks : ∀ c ∈ blanks, c = 0x20#8) (hkey : ∀ c ∈ key, KeyByte c) (hlen : key.length ≤ 49) :
    hack stack (pre ++ (keyHeader ++ (blanks ++ (key ++ 0x0D#8 :: rest)))) =
      .answer (acceptOf stack key) (upgrade (acceptOf stack key)) := by
  have hhead : keyHeader ≠ [] := by decide
  have hskip : (keyHeader ++ (blanks ++ (key ++ 0x0D#8 :: rest))).drop 18 = blanks ++ (key ++ 0x0D#8 :: rest) :=
    List.drop_left' (by decide)
  have hscan : scanKey 50 (blanks ++ (key ++ 0x0D#8 :: rest)) = some key := by
    rw [scanKey_blanks _ hblanks (by norm_num), scanKey_key rest hkey (by omega)]
  have hroom : key.length ≠ 50 := by omega
  unfold hack
  rw [strstr_first hnul hhead hfirst]
  dsimp only
  rw [hskip, hscan]
  dsimp only
  rw [if_neg hroom]

example : acceptOf (fun _ => 0) (charBytes "dGhlIHNhbXBsZSBub25jZQ==") = charBytes "s3pPLMBiTxaQ9kYGzzhZRbK+xOo=" := by
  decide +kernel

theorem first_key_answered (stack : ℕ → Byte) {pre blanks key : List Byte} (rest : List Byte)
    (hnul : ∀ c ∈ pre, c ≠ 0)
    (hfirst : ∀ i, i < pre.length →
      ¬ keyHeader <+: (pre ++ (keyHeader ++ (blanks ++ (key ++ 0x0D#8 :: rest)))).drop i)
    (hblanks : ∀ c ∈ blanks, c = 0x20#8) (hkey : ∀ c ∈ key, KeyByte c) (hlen : key.length ≤ 49) :
    hack stack (pre ++ (keyHeader ++ (blanks ++ (key ++ 0x0D#8 :: rest)))) =
      .answer (Base64.encode (Sha1.sha1 (key ++ guid))) (upgrade (Base64.encode (Sha1.sha1 (key ++ guid)))) := by
  have haccept := acceptOf_eq stack (fun c hc => (hkey c hc).2.2) hlen
  rw [hack_answers stack rest hnul hfirst hblanks hkey hlen, haccept]

theorem sample_key_answered :
    hack (fun _ => 7) (charBytes "GET /\r\n" ++ (keyHeader ++ (charBytes "  " ++
        (charBytes "dGhlIHNhbXBsZSBub25jZQ==" ++ 0x0D#8 :: charBytes "\n\r\n")))) =
      .answer (Base64.encode (Sha1.sha1 (charBytes "dGhlIHNhbXBsZSBub25jZQ==" ++ guid)))
        (upgrade (Base64.encode (Sha1.sha1 (charBytes "dGhlIHNhbXBsZSBub25jZQ==" ++ guid)))) :=
  first_key_answered (fun _ => 7) (charBytes "\n\r\n") (by decide) (by decide) (by decide)
    (by unfold KeyByte; decide) (by decide)

/-- With two key headers the first one is answered, here with no key at all. -/
theorem second_key_ignored :
    ¬ ∀ (stack : ℕ → Byte) (pre blanks key rest : List Byte), (∀ c ∈ pre, c ≠ 0) →
      (∀ c ∈ blanks, c = 0x20#8) → (∀ c ∈ key, KeyByte c) → 1 ≤ key.length → key.length ≤ 49 →
      ∃ sent, hack stack (pre ++ (keyHeader ++ (blanks ++ (key ++ 0x0D#8 :: rest)))) =
        .answer (Base64.encode (Sha1.sha1 (key ++ guid))) sent := by
  intro h
  obtain ⟨sent, hsent⟩ := h (fun _ => 0) (keyHeader ++ [0x0D#8]) [] (charBytes "a") [] (by decide) (by decide)
    (by unfold KeyByte; decide) (by decide) (by decide)
  rw [← acceptOf_eq (fun _ => 0) (by decide) (by decide)] at hsent
  have hnone : ∀ c ∈ ([] : List Byte), KeyByte c := fun c hc => nomatch hc
  have hempty : hack (fun _ => 0) ([] ++ (keyHeader ++ ([] ++ ([] ++ 0x0D#8 :: (keyHeader ++ charBytes "a\r"))))) =
      .answer (acceptOf (fun _ => 0) []) (upgrade (acceptOf (fun _ => 0) [])) :=
    hack_answers (fun _ => 0) (keyHeader ++ charBytes "a\r") (by decide) (by decide) (by decide) hnone (by decide)
  have hdiffer : acceptOf (fun _ => 0) [] ≠ acceptOf (fun _ => 0) (charBytes "a") := by decide +kernel
  have haccept := hempty.symm.trans hsent
  injection haccept with haccept
  exact hdiffer haccept

end FishServer
