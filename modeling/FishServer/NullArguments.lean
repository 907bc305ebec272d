import FishServer.Setting
import FishServer.SessionRun

namespace FishServer

open LinkedList Transition

/-! The pointers of a message that its handler passes to `strcmp`, `strlen` and `atof`. -/

def JsonValue.entries : JsonValue → List (CStr × Option CStr)
  | .null => []
  | .node key value _ next => (key, value) :: next.entries

def Setting.setValueArguments (key : CStr) (value : Option CStr) : List (Option CStr) :=
  if Setting.checkKey key then [some key, value] else [some key]

def Entry.setSettingArguments (json : JsonValue) : List (Option CStr) :=
  (json.childOf "data".toList).entries.flatMap (fun e => Setting.setValueArguments e.1 e.2)

def Entry.toShotArguments (s : Server) (i : Slot) (json : JsonValue) : List (Option CStr) :=
  if (s.user i).any (fun u => decide (0 < u.coin)) then [json.value "angle".toList] else []

def Entry.fishHit (s : Server) (i : Slot) (json : JsonValue) : Option ℕ := do
  let p := s.slot i
  let bullets ← (s.rooms.room (p.room - 1)).bullets
  let b ← Bullets.getBullet bullets (json.valueToInt "bullet_id".toList) p.uid
  let _ ← p.user
  let _ ← b
  let fishs ← (s.rooms.room (p.room - 1)).fishs
  let (_, f) ← Fishs.getFish fishs (json.valueToInt "fish_id".toList)
  f

def Entry.hitFishArguments (s : Server) (i : Slot) (json : JsonValue) : List (Option CStr) :=
  if (Entry.fishHit s i json).isSome then [json.value "fag".toList] else []

def Entry.handlerArguments (s : Server) (i : Slot) (json : JsonValue) (op : CStr) : List (Option CStr) :=
  if op = "verify account".toList ∨ (s.slot i).user = none then []
  else if op = "to shot".toList then
    if 0 < (s.slot i).room then Entry.toShotArguments s i json else []
  else if op = "hit fish".toList then
    if 0 < (s.slot i).room then Entry.hitFishArguments s i json else []
  else if op = "set setting".toList then
    if Entry.allowed s i Privilege.exit then Entry.setSettingArguments json else []
  else []

/-- The keys are compared at every lookup; `valueToInt` and `sendmsg` check for null themselves. -/
def Entry.arguments (s : Server) (i : Slot) (json : JsonValue) : List (Option CStr) :=
  json.entries.map (fun e => some e.1) ++
    (json.value "op".toList).elim [] (fun op => some op :: Entry.handlerArguments s i json op)

def Entry.LiveHit (s : Server) (i : Slot) (json : JsonValue) : Prop :=
  ∃ bullets b fishs f fish, (s.rooms.room ((s.slot i).room - 1)).bullets = some bullets ∧ bullets.lock = false ∧
    bullets.list.find (Bullets.answers (json.valueToInt "bullet_id".toList) (s.slot i).uid) = some b ∧
    (s.rooms.room ((s.slot i).room - 1)).fishs = some fishs ∧ fishs.lock = false ∧
    fishs.list.find (fun f => decide (f.id = json.valueToInt "fish_id".toList)) = some f ∧
    fishs.list.value f = some fish ∧ fish.lock = false ∧ fish.isdel = false

structure Entry.Filled (s : Server) (i : Slot) (json : JsonValue) : Prop where
  angle : json.value "op".toList = some "to shot".toList → 0 < (s.slot i).room →
    (∃ u, s.user i = some u ∧ 0 < u.coin) → json.value "angle".toList ≠ none
  fag : json.value "op".toList = some "hit fish".toList → 0 < (s.slot i).room → (s.slot i).user ≠ none →
    Entry.LiveHit s i json → json.value "fag".toList ≠ none
  settings : json.value "op".toList = some "set setting".toList → Entry.allowed s i Privilege.exit = true →
    ∀ key value, (key, value) ∈ (json.childOf "data".toList).entries → Setting.checkKey key = true → value ≠ none

section

variable {s : Server} {i : Slot} {json : JsonValue}

theorem mem_setSettingArguments (json : JsonValue) : none ∈ Entry.setSettingArguments json ↔
    ∃ key, (key, none) ∈ (json.childOf "data".toList).entries ∧ Setting.checkKey key = true := by
  unfold Entry.setSettingArguments
  rw [List.mem_flatMap]
  constructor
  · rintro ⟨⟨key, value⟩, hmem, hnone⟩
    unfold Setting.setValueArguments at hnone
    split_ifs at hnone with hkey
    · have hvalue : none = value := by simpa using hnone
      exact ⟨key, hvalue ▸ hmem, hkey⟩
    · simp at hnone
  · rintro ⟨key, hmem, hkey⟩
    refine ⟨(key, none), hmem, ?_⟩
    unfold Setting.setValueArguments
    rw [if_pos hkey]
    simp

theorem getFish_some {o o' : Fishs} {id : ℤ} {f : ℕ} (h : Fishs.getFish o id = some (o', some f)) :
    o.lock = false ∧ o.list.find (fun f => decide (f.id = id)) = some f ∧
      ∃ fish, o.list.value f = some fish ∧ fish.lock = false ∧ fish.isdel = false := by
  unfold Fishs.getFish at h
  split_ifs at h with hlock
  split at h
  · cases h
  · rename_i p hfind
    cases hv : o.list.value p with
    | none =>
      rw [hv, Option.any_none, if_neg (by decide)] at h
      cases h
    | some fish =>
      rw [hv, Option.any_some] at h
      split_ifs at h with hlive
      · cases h
        rw [Bool.and_eq_true, Bool.not_eq_true', Bool.not_eq_true'] at hlive
        exact ⟨by simpa using hlock, hfind, fish, hv, hlive.1, hlive.2⟩
      · cases h

theorem getFish_of_live {o : Fishs} {id : ℤ} {f : ℕ} {fish : Fish} (hlock : o.lock = false)
    (hfind : o.list.find (fun f => decide (f.id = id)) = some f) (hv : o.list.value f = some fish)
    (hl : fish.lock = false) (hd : fish.isdel = false) : ∃ o', Fishs.getFish o id = some (o', some f) := by
  unfold Fishs.getFish
  rw [if_neg (by rw [hlock]; decide)]
  simp only [hfind, hv, Option.any_some, hl, hd, Bool.not_false, Bool.and_self, if_true]
  exact ⟨_, rfl⟩

theorem fishHit_iff : (Entry.fishHit s i json).isSome = true ↔ (s.slot i).user ≠ none ∧ Entry.LiveHit s i json := by
  unfold Entry.fishHit Bullets.getBullet
  constructor
  · intro h
    obtain ⟨f, h⟩ := Option.isSome_iff_exists.mp h
    simp only [Option.bind_eq_bind, Option.bind_eq_some_iff] at h
    obtain ⟨bullets, hbullets, found, hb, a, ha, b, rfl, fishs, hfishs, ⟨o, f'⟩, hf, rfl⟩ := h
    split_ifs at hb with hlock
    obtain ⟨hflock, hffind, fish, hv, hl, hd⟩ := getFish_some hf
    refine ⟨by rw [ha]; simp, bullets, b, fishs, f, fish, hbullets, by simpa using hlock, ?_, hfishs, hflock, hffind,
      hv, hl, hd⟩
    exact Option.some.inj hb
  · rintro ⟨huser, bullets, b, fishs, f, fish, hbullets, hlock, hfind, hfishs, hflock, hffind, hv, hl, hd⟩
    obtain ⟨a, ha⟩ := Option.ne_none_iff_exists'.mp huser
    obtain ⟨o, ho⟩ := getFish_of_live hflock hffind hv hl hd
    simp only [hbullets, Option.bind_eq_bind, Option.bind_some, hlock, Bool.false_eq_true, if_false, ha, hfind, hfishs,
      ho, Option.isSome_some]

theorem mem_toShotArguments : none ∈ Entry.toShotArguments s i json ↔
    (∃ u, s.user i = some u ∧ 0 < u.coin) ∧ json.value "angle".toList = none := by
  unfold Entry.toShotArguments
  cases hu : s.user i with
  | none => simp
  | some u =>
    rw [Option.any_some]
    split_ifs with hcoin
    · simp [of_decide_eq_true hcoin, eq_comm]
    · simp only [decide_eq_true_eq] at hcoin
      simp [hcoin]

theorem mem_hitFishArguments : none ∈ Entry.hitFishArguments s i json ↔
    (s.slot i).user ≠ none ∧ Entry.LiveHit s i json ∧ json.value "fag".toList = none := by
  unfold Entry.hitFishArguments
  rw [← and_assoc, ← fishHit_iff]
  split_ifs with h
  · simp [h, eq_comm]
  · simp [h]

theorem null_handlerArgument_iff {op : CStr} : none ∈ Entry.handlerArguments s i json op ↔
    (op = "to shot".toList ∧ 0 < (s.slot i).room ∧ none ∈ Entry.toShotArguments s i json) ∨
    (op = "hit fish".toList ∧ 0 < (s.slot i).room ∧ none ∈ Entry.hitFishArguments s i json) ∨
    (op = "set setting".toList ∧ Entry.allowed s i Privilege.exit = true ∧ none ∈ Entry.setSettingArguments json) := by
  have hshot : "to shot".toList ≠ "verify account".toList := by decide
  have hhit : "hit fish".toList ≠ "verify account".toList ∧ "hit fish".toList ≠ "to shot".toList := by decide
  have hset : "set setting".toList ≠ "verify account".toList ∧ "set setting".toList ≠ "to shot".toList ∧
      "set setting".toList ≠ "hit fish".toList := by decide
  constructor
  · intro h
    unfold Entry.handlerArguments at h
    split_ifs at h with _ hop hroom hop hroom hop hright
    · cases h
    · exact .inl ⟨hop, hroom, h⟩
    · cases h
    · exact .inr (.inl ⟨hop, hroom, h⟩)
    · cases h
    · exact .inr (.inr ⟨hop, hright, h⟩)
    · cases h
    · cases h
  · unfold Entry.handlerArguments
    rintro (⟨rfl, hroom, h⟩ | ⟨rfl, hroom, h⟩ | ⟨rfl, hright, h⟩)
    · have huser : (s.slot i).user ≠ none := by
        obtain ⟨⟨u, hu, -⟩, -⟩ := mem_toShotArguments.mp h
        intro hnone
        unfold Server.user at hu
        rw [hnone] at hu
        cases hu
      rw [if_neg (by tauto), if_pos rfl, if_pos hroom]
      exact h
    · have huser := (mem_hitFishArguments.mp h).1
      rw [if_neg (by tauto), if_neg hhit.2, if_pos rfl, if_pos hroom]
      exact h
    · have huser : (s.slot i).user ≠ none := by
        intro hnone
        unfold Entry.allowed Server.user at hright
        rw [hnone] at hright
        cases hright
      rw [if_neg (by tauto), if_neg hset.2.1, if_neg hset.2.2, if_pos rfl, if_pos hright]
      exact h

theorem null_argument_iff : none ∈ Entry.arguments s i json ↔
    ∃ op, json.value "op".toList = some op ∧ none ∈ Entry.handlerArguments s i json op := by
  unfold Entry.arguments
  rw [List.mem_append]
  cases json.value "op".toList with
  | none => simp
  | some op => simp

end

theorem arguments_present_iff (s : Server) (i : Slot) (json : JsonValue) :
    (∀ p ∈ Entry.arguments s i json, p ≠ none) ↔ Entry.Filled s i json := by
  have hnull : (∀ p ∈ Entry.arguments s i json, p ≠ none) ↔ ¬ none ∈ Entry.arguments s i json := by
    constructor
    · intro h hmem
      exact h none hmem rfl
    · rintro h p hp rfl
      exact h hp
  rw [hnull, null_argument_iff]
  constructor
  · intro h
    constructor
    · intro hop hroom hcoin hangle
      exact h ⟨_, hop, null_handlerArgument_iff.mpr (.inl ⟨rfl, hroom, mem_toShotArguments.mpr ⟨hcoin, hangle⟩⟩)⟩
    · intro hop hroom huser hlive hfag
      exact h ⟨_, hop, null_handlerArgument_iff.mpr
        (.inr (.inl ⟨rfl, hroom, mem_hitFishArguments.mpr ⟨huser, hlive, hfag⟩⟩))⟩
    · rintro hop hright key value hmem hkey rfl
      exact h ⟨_, hop, null_handlerArgument_iff.mpr
        (.inr (.inr ⟨rfl, hright, (mem_setSettingArguments json).mpr ⟨key, hmem, hkey⟩⟩))⟩
  · rintro h ⟨op, hop, hmem⟩
    rcases null_handlerArgument_iff.mp hmem with ⟨rfl, hroom, hnone⟩ | ⟨rfl, hroom, hnone⟩ | ⟨rfl, hright, hnone⟩
    · obtain ⟨hcoin, hangle⟩ := mem_toShotArguments.mp hnone
      exact h.angle hop hroom hcoin hangle
    · obtain ⟨huser, hlive, hfag⟩ := mem_hitFishArguments.mp hnone
      exact h.fag hop hroom huser hlive hfag
    · obtain ⟨key, hmem, hkey⟩ := (mem_setSettingArguments json).mp hnone
      exact h.settings hop hright key none hmem hkey rfl

section

variable {s : Server} {i : Slot} {json : JsonValue} {st : Setting} {now : ℤ} {time : ℚ} {rand : ℕ → ℕ}

theorem setAll_null {key : CStr} (hmem : (key, none) ∈ json.entries) (hkey : Setting.checkKey key = true)
    (errors successes : ℕ) : st.setAll errors successes json = none := by
  induction json generalizing st errors successes with
  | null => cases hmem
  | node k v child next _ ih =>
    rw [Setting.setAll]
    rcases List.mem_cons.mp hmem with heq | hnext
    · cases heq
      have hnone : st.setValue key none = none := by
        unfold Setting.setValue
        rw [if_neg (by rw [hkey]; decide)]
        rfl
      rw [hnone]
      rfl
    · cases hv : st.setValue k v with
      | none => rfl
      | some r =>
        obtain ⟨st', ok⟩ := r
        simp only [Option.bind_eq_bind, Option.bind_some]
        split_ifs
        · exact ih hnext _ _
        · exact ih hnext _ _

theorem toShot_null (h : none ∈ Entry.toShotArguments s i json) : Entry.toShot s i json now time = none := by
  obtain ⟨⟨u, hu, hcoin⟩, hangle⟩ := mem_toShotArguments.mp h
  obtain ⟨a, ha, rfl⟩ := Option.map_eq_some_iff.mp hu
  unfold Entry.toShot
  simp only [ha]
  rw [if_neg (by omega)]
  unfold Entry.shoot
  simp only [hangle]
  rfl

theorem hitFish_null (h : none ∈ Entry.hitFishArguments s i json) : Entry.hitFish s i json = none := by
  obtain ⟨huser, ⟨bullets, b, fishs, f, fish, hbullets, hlock, hfind, hfishs, hflock, hffind, hv, hl, hd⟩, hfag⟩ :=
    mem_hitFishArguments.mp h
  obtain ⟨a, ha⟩ := Option.ne_none_iff_exists'.mp huser
  obtain ⟨o, ho⟩ := getFish_of_live hflock hffind hv hl hd
  unfold Entry.hitFish Bullets.getBullet
  simp only [hbullets, Option.bind_eq_bind, Option.bind_some, hlock, Bool.false_eq_true, if_false, hfind, ha, hfishs,
    ho, Option.map_eq_none_iff]
  unfold Entry.award
  simp only [hfag, Option.bind_eq_bind, Option.bind_none]
  cases o.list.value f with
  | none => rfl
  | some v => rfl

theorem null_argument_stops (h : none ∈ Entry.arguments s i json) :
    Entry.entry st s i json now time rand = none := by
  have hshot : "to shot".toList ≠ "verify account".toList ∧ "to shot".toList ≠ "in room".toList ∧
      "to shot".toList ≠ "leave room".toList ∧ "to shot".toList ≠ "set setting".toList := by decide
  have hhit : "hit fish".toList ≠ "verify account".toList ∧ "hit fish".toList ≠ "in room".toList ∧
      "hit fish".toList ≠ "leave room".toList ∧ "hit fish".toList ≠ "to shot".toList ∧
      "hit fish".toList ≠ "set setting".toList := by decide
  obtain ⟨op, hop, hmem⟩ := null_argument_iff.mp h
  unfold Entry.entry
  rcases null_handlerArgument_iff.mp hmem with ⟨rfl, hroom, hnone⟩ | ⟨rfl, hroom, hnone⟩ | ⟨rfl, hright, hnone⟩
  · have huser : (s.slot i).user ≠ none := by
      obtain ⟨⟨u, hu, -⟩, -⟩ := mem_toShotArguments.mp hnone
      intro hn
      unfold Server.user at hu
      rw [hn] at hu
      cases hu
    rw [hop, if_neg (by rw [Option.some.injEq]; tauto), Option.map_eq_none_iff]
    unfold Entry.dispatch
    simp only [hop]
    rw [if_neg hshot.1, if_neg huser, if_neg hshot.2.1, if_neg hshot.2.2.1, if_pos trivial, if_pos hroom]
    exact toShot_null hnone
  · have huser := (mem_hitFishArguments.mp hnone).1
    rw [hop, if_neg (by rw [Option.some.injEq]; tauto), Option.map_eq_none_iff]
    unfold Entry.dispatch
    simp only [hop]
    rw [if_neg hhit.1, if_neg huser, if_neg hhit.2.1, if_neg hhit.2.2.1, if_neg hhit.2.2.2.1, if_pos trivial,
      if_pos hroom]
    exact hitFish_null hnone
  · rw [if_pos ⟨hop, hright⟩]
    obtain ⟨key, hmem, hkey⟩ := (mem_setSettingArguments json).mp hnone
    unfold Entry.setSetting
    rw [setAll_null hmem hkey]
    rfl

end

theorem missing_angle_passed : ¬ ∀ (heap : ℕ → Option Char) (text : CStr) (json : JsonValue) (cursor : Cursor),
    parseString heap text = some (.done json cursor) → json ≠ .null →
      ∀ s, Reach (serverStep sampleKey) (fun _ _ => True) sampleServer s →
        ∀ i, (s.slot i).user ≠ none → ∀ p ∈ Entry.arguments s i json, p ≠ none := by
  intro h
  have hparse : parseString (fun _ => none) "\x7b'op':'to shot'\x7d".toList =
      some (.done (message [("op".toList, "to shot".toList)]) (some [])) := by decide +kernel
  have hrun : (runIf (serverStep sampleKey) (fun _ _ => true) sampleServer (enter 0 5 ['a'] ++ [inRoom 0])).any
      (fun s => decide ((s.slot 0).user ≠ none) &&
        decide (none ∈ Entry.arguments s 0 (message [("op".toList, "to shot".toList)]))) = true := by decide +kernel
  obtain ⟨s, hs, htest⟩ := (Option.any_eq_true _ _).mp hrun
  rw [Bool.and_eq_true, decide_eq_true_eq, decide_eq_true_eq] at htest
  have hreach : Reach (serverStep sampleKey) (fun _ _ => True) sampleServer s :=
    (Reach.of_runIf hs).mono (fun _ _ _ => trivial)
  exact h _ _ _ _ hparse (by decide) s hreach 0 htest.1 none htest.2 rfl

end FishServer
