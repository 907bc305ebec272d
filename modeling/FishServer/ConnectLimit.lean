import FishServer.Decimal
import FishServer.JsonContent
import FishServer.SessionRun

namespace FishServer

open Printf

/-! The limiter of `onconnect`, which keeps its counts as texts in Redis. -/

abbrev Redis := CStr → Option CStr

-- an empty string is answered like none
def Redis.get (r : Redis) (key : CStr) : Option CStr := (r key).filter (· ≠ [])

def Redis.set (r : Redis) (key value : CStr) : Redis := Function.update r key (some value)

/-- A call of `onconnect`. `now` is the time that it reads, `inTime` the one that `Players::add` reads, and `heap`
gives the old contents of the blocks that the parse gets. -/
structure Visit where
  socket : ℕ
  ip : Fin (2 ^ 32)
  now : ℤ
  inTime : ℤ
  heap : ℕ → Option Char
  isTime : 0 < now ∧ now ≤ maxInt

/-- `added` says whether the last call came to `Players::add`. No function reads it. -/
structure Gate where
  redis : Redis
  server : Server
  added : Bool

-- `%ld` prints the address as a signed number of 32 bits
def limitKey (ip : ℤ) : List Piece := [.lit "ip_limit_", .int ip]

def limitText (startTime endTime count : ℤ) : List Piece :=
  [.lit "\x7b'start_time':", .int startTime, .lit ",'end_time':", .int endTime, .lit ",'count':", .int count,
    .lit "\x7d"]

def ipKey (ip : Fin (2 ^ 32)) : CStr := sprintf (limitKey (i32 ip))

def limitRecord (startTime endTime count : ℤ) : CStr := sprintf (limitText startTime endTime count)

def Gate.keep (g : Gate) (v : Visit) (startTime count : ℤ) : Gate :=
  { g with redis := g.redis.set (ipKey v.ip) (limitRecord startTime v.now count) }

def Gate.add (g : Gate) (v : Visit) : Gate :=
  { g with server := Players.add g.server v.socket v.ip v.inTime, added := true }

def Gate.refuse (g : Gate) : Gate := { g with added := false }

/-- None is for a parse that reads behind the text, or that stores no key, so that the head that the lookups start
from is not set. -/
def onconnect (g : Gate) (v : Visit) : Option Gate :=
  match g.redis.get (ipKey v.ip) with
  | none => some ((g.add v).keep v v.now 1)
  | some result =>
    match parseString v.heap result with
    | some (.done (.node key value child next) _) =>
      let json := JsonValue.node key value child next
      let startTime := json.valueToInt "start_time".toList
      let count := i32 (json.valueToInt "count".toList + 1)
      some ((if 10000 < count then g.refuse else g.add v).keep v startTime count)
    | _ => none

def onconnects (g : Gate) : List Visit → Option Gate
  | [] => some g
  | v :: vs => (onconnect g v).bind (fun g => onconnects g vs)

def Gate.start (s : Server) : Gate := ⟨fun _ => none, s, false⟩

structure Limit where
  start : ℤ
  count : ℤ

def limitAfter (l : Option Limit) (now : ℤ) : Limit :=
  match l with
  | none => ⟨now, 1⟩
  | some x => ⟨x.start, i32 (x.count + 1)⟩

def visitsFrom (ip : Fin (2 ^ 32)) (vs : List Visit) : ℕ := vs.countP (fun v => decide (v.ip = ip))

def firstTime (ip : Fin (2 ^ 32)) (vs : List Visit) : Option ℤ :=
  (vs.find? (fun v => decide (v.ip = ip))).map Visit.now

def Redis.Stores (r : Redis) (ip : Fin (2 ^ 32)) (x : Limit) : Prop :=
  isInt x.start = true ∧ isInt x.count = true ∧
    ∃ endTime, isInt endTime = true ∧ r (ipKey ip) = some (limitRecord x.start endTime x.count)

def limits (l : Fin (2 ^ 32) → Option Limit) (vs : List Visit) : Fin (2 ^ 32) → Option Limit :=
  vs.foldl (fun l v => Function.update l v.ip (some (limitAfter (l v.ip) v.now))) l

def Redis.Encodes (r : Redis) (l : Fin (2 ^ 32) → Option Limit) : Prop :=
  ∀ ip, (l ip = none → r (ipKey ip) = none) ∧ ∀ x ∈ l ip, r.Stores ip x

theorem ipKey_injective {ip ip' : Fin (2 ^ 32)} (h : ipKey ip = ipKey ip') : ip = ip' := by
  have hdecimal : decimal (i32 ip) = decimal (i32 ip') := by
    simpa [ipKey, limitKey, sprintf, Piece.print] using h
  have hi : i32 ip = i32 ip' := by
    rw [← atoi_decimal (isInt_i32 ip), hdecimal, atoi_decimal (isInt_i32 ip')]
  have := ip.isLt
  have := ip'.isLt
  unfold i32 at hi
  ext
  omega

theorem limitKey_length (n : ℤ) : (sprintf (limitKey n)).length = 9 + width n := by
  have hlit : ((limitKey n).map Piece.literal).sum = 9 := by
    simp only [limitKey, List.map_cons, List.sum_cons, List.map_nil, List.sum_nil, Piece.literal]
    decide +kernel
  rw [sprintf_length, hlit]
  simp only [limitKey, List.map_cons, List.sum_cons, List.map_nil, List.sum_nil, Piece.filled]
  omega

theorem limitText_length (startTime endTime count : ℤ) :
    (sprintf (limitText startTime endTime count)).length =
      36 + (width startTime + width endTime + width count) := by
  have hlit : ((limitText startTime endTime count).map Piece.literal).sum = 36 := by
    simp only [limitText, List.map_cons, List.sum_cons, List.map_nil, List.sum_nil, Piece.literal]
    decide +kernel
  rw [sprintf_length, hlit]
  simp only [limitText, List.map_cons, List.sum_cons, List.map_nil, List.sum_nil, Piece.filled]
  omega

theorem ipKey_fits (ip : Fin (2 ^ 32)) : (ipKey ip).length < 32 := by
  have hlength := limitKey_length (i32 ip)
  have hwidth := width_isInt (isInt_i32 ip)
  calc (ipKey ip).length = 9 + width (i32 ip) := hlength
    _ ≤ 9 + 11 := Nat.add_le_add_left hwidth 9
    _ < 32 := by norm_num

theorem limitRecord_fits {startTime endTime count : ℤ} (hs : isInt startTime = true) (he : isInt endTime = true)
    (hc : isInt count = true) : (limitRecord startTime endTime count).length < 128 := by
  have hlength := limitText_length startTime endTime count
  have hs := width_isInt hs
  have he := width_isInt he
  have hc := width_isInt hc
  unfold limitRecord
  omega

def quotedHead (key : CStr) (ne : key ≠ []) (plain : ∀ c ∈ key, isQuote c = false ∧ c ≠ ' ' ∧ c ≠ ':' ∧ c ≠ '\\') :
    Head where
  before := 0
  quote := some '\''
  key := key
  afterKey := 0
  afterColon := 0
  quote_mark := by
    rintro q ⟨⟩
    rfl
  key_ne := ne
  key_plain := plain

def limitMembers (startTime endTime count : ℤ) : Members :=
  .leaf (quotedHead "start_time".toList (by simp) (by simp [isQuote])) (numberLeaf startTime) 0
    (.leaf (quotedHead "end_time".toList (by simp) (by simp [isQuote])) (numberLeaf endTime) 0
      (.leaf (quotedHead "count".toList (by simp) (by simp [isQuote])) (numberLeaf count) 0 .nil))

theorem limitRecord_printed (startTime endTime count : ℤ) :
    limitRecord startTime endTime count = (limitMembers startTime endTime count).printed := by
  simp [limitRecord, limitText, limitMembers, Members.printed, Members.text, Members.comma, Head.text, Head.keyText,
    quotedHead, numberLeaf_text, sprintf, Piece.print, blanks]

theorem limitMembers_reads (startTime endTime count : ℤ) : (limitMembers startTime endTime count).Reads false 0 := by
  have hopens : ∀ h : Head, h.opens false 0 := by
    intro h hchild
    cases hchild
  have hcloses : ∀ n, (numberLeaf n).closes := fun n => True.intro
  unfold limitMembers
  simp only [Members.Reads, hopens, hcloses, and_true]

theorem limitRecord_parses (heap : ℕ → Option Char) (startTime endTime count : ℤ) :
    Builds (limitMembers startTime endTime count).tree (parseString heap (limitRecord startTime endTime count)) := by
  rw [limitRecord_printed]
  exact reads_builds heap (limitMembers_reads startTime endTime count)

theorem limitTree_start {startTime : ℤ} (h : isInt startTime = true) (endTime count : ℤ) :
    (limitMembers startTime endTime count).tree.valueToInt "start_time".toList = startTime := by
  have hvalue : (limitMembers startTime endTime count).tree.value "start_time".toList = some (decimal startTime) := by
    simp [limitMembers, Members.tree, JsonValue.value, quotedHead, numberLeaf_value]
  rw [JsonValue.valueToInt, hvalue, Option.map_some, Option.getD_some, atoi_decimal h]

theorem limitTree_count {count : ℤ} (h : isInt count = true) (startTime endTime : ℤ) :
    (limitMembers startTime endTime count).tree.valueToInt "count".toList = count := by
  have hvalue : (limitMembers startTime endTime count).tree.value "count".toList = some (decimal count) := by
    simp [limitMembers, Members.tree, JsonValue.value, quotedHead, numberLeaf_value]
  rw [JsonValue.valueToInt, hvalue, Option.map_some, Option.getD_some, atoi_decimal h]

section

variable {r : Redis} {ip : Fin (2 ^ 32)} {x : Limit} {g : Gate} {l : Fin (2 ^ 32) → Option Limit}

theorem get_limitRecord {startTime endTime count : ℤ} (h : r (ipKey ip) = some (limitRecord startTime endTime count)) :
    r.get (ipKey ip) = some (limitRecord startTime endTime count) := by
  have hne : limitRecord startTime endTime count ≠ [] := by
    rw [limitRecord_printed]
    exact List.cons_ne_nil _ _
  rw [Redis.get, h, Option.filter_some, if_pos (decide_eq_true hne)]

theorem Redis.Stores.parses (h : r.Stores ip x) : ∃ text, r.get (ipKey ip) = some text ∧ ∀ heap,
    ∃ key value child next cursor, parseString heap text = some (.done (.node key value child next) cursor) ∧
      (JsonValue.node key value child next).valueToInt "start_time".toList = x.start ∧
      (JsonValue.node key value child next).valueToInt "count".toList = x.count := by
  obtain ⟨hstart, hcount, endTime, -, htext⟩ := h
  refine ⟨_, get_limitRecord htext, ?_⟩
  intro heap
  obtain ⟨cursor, hparse⟩ := limitRecord_parses heap x.start endTime x.count
  exact ⟨_, _, _, _, cursor, hparse, limitTree_start hstart endTime x.count, limitTree_count hcount x.start endTime⟩

theorem encodes_set (h : r.Encodes l) (v : Visit) (hstart : isInt x.start = true) (hcount : isInt x.count = true) :
    Redis.Encodes (r.set (ipKey v.ip) (limitRecord x.start v.now x.count)) (Function.update l v.ip (some x)) := by
  intro ip
  by_cases hip : ip = v.ip
  · subst hip
    rw [Function.update_self]
    refine ⟨?_, ?_⟩
    · rintro ⟨⟩
    · rintro y ⟨⟩
      have hnow : isInt v.now = true := by
        have ht := v.isTime
        unfold maxInt at ht
        simp only [isInt, Bool.and_eq_true, decide_eq_true_eq]
        omega
      exact ⟨hstart, hcount, v.now, hnow, Function.update_self ..⟩
  · have hkey : ipKey ip ≠ ipKey v.ip := fun he => hip (ipKey_injective he)
    rw [Function.update_of_ne hip]
    unfold Redis.Stores Redis.set
    rw [Function.update_of_ne hkey]
    exact h ip

theorem onconnect_step (h : g.redis.Encodes l) (v : Visit) : ∃ g', onconnect g v = some g' ∧
    g'.redis.Encodes (Function.update l v.ip (some (limitAfter (l v.ip) v.now))) ∧
      (g'.added = true ↔ (limitAfter (l v.ip) v.now).count ≤ 10000) ∧
        g'.server = if (limitAfter (l v.ip) v.now).count ≤ 10000 then Players.add g.server v.socket v.ip v.inTime
          else g.server := by
  unfold onconnect
  cases hl : l v.ip with
  | none =>
    have hget : g.redis.get (ipKey v.ip) = none := by
      rw [Redis.get, (h v.ip).1 hl]
      rfl
    rw [hget]
    have hone : isInt 1 = true := by decide
    refine ⟨_, rfl, encodes_set h v (x := ⟨v.now, 1⟩) ?_ hone, ?_, ?_⟩
    · have ht := v.isTime
      unfold maxInt at ht
      simp only [isInt, Bool.and_eq_true, decide_eq_true_eq]
      omega
    · simp [Gate.keep, Gate.add, limitAfter]
    · simp [Gate.keep, Gate.add, limitAfter]
  | some x =>
    have hx := (h v.ip).2 x hl
    obtain ⟨text, htext, hparse⟩ := hx.parses
    obtain ⟨key, value, child, next, cursor, hp, hstart, hcount⟩ := hparse v.heap
    rw [htext]
    simp only [hp, hstart, hcount]
    refine ⟨_, rfl, ?_, ?_, ?_⟩
    · have hset := encodes_set h v (x := ⟨x.start, i32 (x.count + 1)⟩) hx.1 (isInt_i32 _)
      split_ifs
      · exact hset
      · exact hset
    · simp only [limitAfter, Gate.keep, Gate.add, Gate.refuse]
      split_ifs with hlt
      · simpa using hlt
      · simpa using hlt
    · change _ = if i32 (x.count + 1) ≤ 10000 then Players.add g.server v.socket v.ip v.inTime else g.server
      by_cases hlt : 10000 < i32 (x.count + 1)
      · rw [if_pos hlt, if_neg (not_le.mpr hlt)]
        rfl
      · rw [if_neg hlt, if_pos (not_lt.mp hlt)]
        rfl

theorem onconnects_append (g : Gate) (vs : List Visit) (v : Visit) :
    onconnects g (vs ++ [v]) = (onconnects g vs).bind (fun g => onconnect g v) := by
  induction vs generalizing g with
  | nil =>
    rw [List.nil_append, onconnects, onconnects, Option.bind_some]
    cases onconnect g v <;> rfl
  | cons w vs ih =>
    rw [List.cons_append, onconnects, onconnects]
    cases onconnect g w with
    | none => rfl
    | some g' => exact ih g'

theorem onconnects_encodes (vs : List Visit) (h : g.redis.Encodes l) :
    ∃ g', onconnects g vs = some g' ∧ g'.redis.Encodes (limits l vs) := by
  induction vs generalizing g l with
  | nil => exact ⟨g, rfl, h⟩
  | cons v vs ih =>
    obtain ⟨g₁, hg, he, -⟩ := onconnect_step h v
    rw [onconnects, hg]
    exact ih he

theorem start_encodes (s : Server) : (Gate.start s).redis.Encodes (fun _ => none) := by
  intro ip
  refine ⟨fun _ => rfl, ?_⟩
  rintro x ⟨⟩

end

theorem limits_append (l : Fin (2 ^ 32) → Option Limit) (vs : List Visit) (v : Visit) :
    limits l (vs ++ [v]) =
      Function.update (limits l vs) v.ip (some (limitAfter (limits l vs v.ip) v.now)) := by
  rw [limits, List.foldl_append]
  rfl

theorem visitsFrom_none {ip : Fin (2 ^ 32)} {vs : List Visit} (h : firstTime ip vs = none) : visitsFrom ip vs = 0 := by
  rw [firstTime, Option.map_eq_none_iff, List.find?_eq_none] at h
  exact List.countP_eq_zero.mpr h

theorem limits_eq (vs : List Visit) (ip : Fin (2 ^ 32)) :
    limits (fun _ => none) vs ip = (firstTime ip vs).map (fun t => ⟨t, i32 (visitsFrom ip vs)⟩) := by
  induction vs using List.reverseRecOn with
  | nil => rfl
  | append_singleton vs v ih =>
    have hfirst : firstTime ip (vs ++ [v]) = (firstTime ip vs).or (if v.ip = ip then some v.now else none) := by
      rw [firstTime, List.find?_append, firstTime]
      cases vs.find? (fun v => decide (v.ip = ip)) with
      | some w => rfl
      | none => by_cases hv : v.ip = ip <;> simp [hv]
    have hcount : visitsFrom ip (vs ++ [v]) = visitsFrom ip vs + if v.ip = ip then 1 else 0 := by
      simp [visitsFrom, List.countP_append, List.countP_cons]
    rw [limits_append, hfirst, hcount]
    by_cases hv : v.ip = ip
    · subst hv
      rw [Function.update_self, ih, if_pos rfl, if_pos rfl]
      cases hf : firstTime v.ip vs with
      | none =>
        rw [visitsFrom_none hf]
        rfl
      | some t =>
        simp only [Option.map_some, Option.some_or, limitAfter, i32_succ, Nat.cast_add, Nat.cast_one]
    · rw [Function.update_of_ne (Ne.symm hv), ih, if_neg hv, if_neg hv, Option.or_none, Nat.add_zero]

theorem kth_connection (s : Server) (vs : List Visit) (v : Visit) (hk : visitsFrom v.ip (vs ++ [v]) < 2 ^ 31) :
    ∃ g g', onconnects (Gate.start s) vs = some g ∧ onconnects (Gate.start s) (vs ++ [v]) = some g' ∧
      (g'.added = true ↔ visitsFrom v.ip (vs ++ [v]) ≤ 10000) ∧
      (g'.server = if visitsFrom v.ip (vs ++ [v]) ≤ 10000 then Players.add g.server v.socket v.ip v.inTime
        else g.server) ∧
      ∃ text, g'.redis.get (ipKey v.ip) = some text ∧ ∀ heap, ∃ tree cursor,
        parseString heap text = some (.done tree cursor) ∧
        tree.valueToInt "count".toList = visitsFrom v.ip (vs ++ [v]) ∧
        firstTime v.ip (vs ++ [v]) = some (tree.valueToInt "start_time".toList) := by
  obtain ⟨g, hg, he⟩ := onconnects_encodes vs (start_encodes s)
  obtain ⟨g', hg', he', hadd, hserver⟩ := onconnect_step he v
  have hlimit := limits_eq (vs ++ [v]) v.ip
  rw [limits_append, Function.update_self] at hlimit
  obtain ⟨t, ht, hx⟩ := Option.map_eq_some_iff.mp hlimit.symm
  have hcount : i32 (visitsFrom v.ip (vs ++ [v])) = visitsFrom v.ip (vs ++ [v]) :=
    i32_of_bounds (by omega) (by omega)
  have hfew : (limitAfter (limits (fun _ => none) vs v.ip) v.now).count ≤ 10000 ↔
      visitsFrom v.ip (vs ++ [v]) ≤ 10000 := by
    rw [← hx]
    simp only [hcount]
    omega
  obtain ⟨text, htext, hparse⟩ := ((he' v.ip).2 _ (Function.update_self ..)).parses
  refine ⟨g, g', hg, ?_, hadd.trans hfew, ?_, text, htext, ?_⟩
  · rw [onconnects_append, hg, Option.bind_some, hg']
  · rw [hserver]
    exact if_congr hfew rfl rfl
  · intro heap
    obtain ⟨key, value, child, next, cursor, hp, hstart, hnum⟩ := hparse heap
    refine ⟨_, cursor, hp, ?_, ?_⟩
    · rw [hnum, ← hx]
      exact hcount
    · rw [ht, hstart, ← hx]

def localhost : Fin (2 ^ 32) := ⟨127, by norm_num⟩

def sampleVisit : Visit := ⟨5, localhost, 60, 60, fun _ => none, by decide⟩

theorem first_connection : ∃ g g', onconnects (Gate.start sampleServer) [] = some g ∧
    onconnects (Gate.start sampleServer) [sampleVisit] = some g' ∧ g'.added = true ∧
      g'.server = Players.add g.server 5 localhost 60 ∧
      ∃ text, g'.redis.get (ipKey localhost) = some text ∧ ∀ heap, ∃ tree cursor,
        parseString heap text = some (.done tree cursor) ∧ tree.valueToInt "count".toList = 1 ∧
          some 60 = some (tree.valueToInt "start_time".toList) := by
  have hone : visitsFrom localhost ([] ++ [sampleVisit]) = 1 := by decide
  obtain ⟨g, g', hg, hg', hadd, hserver, htext⟩ :=
    kth_connection sampleServer [] sampleVisit (List.countP_le_length.trans_lt (by norm_num))
  have hip : sampleVisit.ip = localhost := rfl
  rw [hip, hone] at hadd hserver htext
  exact ⟨g, g', hg, hg', hadd.mpr (by norm_num), hserver.trans (if_pos (by norm_num)), htext⟩

end FishServer
