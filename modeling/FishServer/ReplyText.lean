import FishServer.Decimal
import FishServer.Entry

namespace FishServer

open Printf

/-! The texts that the handlers format into buffers of their own. `time` is what `%.3f` prints, `angle` and
`fag` what `%.2f` prints. -/

/-- A user without a name holds a null pointer, and the library prints that as a text of its own. -/
def printName (name : CStr) : CStr := if name = [] then "(null)".toList else name

def Entry.findRoomText (p : Player) (u : User) (room seat : ℕ) (time : CStr) : List Piece :=
  [.lit "\x7b'op':'find room', 'uid':", .int p.uid, .lit ", 'name':'", .str (printName u.name),
    .lit "', 'room':", .int room, .lit ", 'seat':", .int seat, .lit ", 'time':", .str time, .lit "\x7d"]

def Thread.verifyText (u : User) (time : CStr) : List Piece :=
  [.lit "\x7b'op':'verify account', 'status':1, 'uid':", .int u.id, .lit ", 'coin':", .int u.coin,
    .lit ", 'name':'", .str (printName u.name), .lit "', 'time':", .str time, .lit "\x7d"]

def Entry.toShotText (p : Player) (u : User) (json : JsonValue) (angle : CStr) (bullet : Bullet) : List Piece :=
  [.lit "\x7b'op':'to shot', 'status':1, 'uid':", .int p.uid, .lit ", 'seat':", .int p.seat,
    .lit ", 'coin':", .int u.coin, .lit ", 'x':", .int (json.valueToInt "x".toList),
    .lit ", 'y':", .int (json.valueToInt "y".toList), .lit ", 'angle':", .str angle,
    .lit ", 'id':", .int bullet.id, .lit "\x7d"]

def Entry.hitFishText (p : Player) (u : User) (json : JsonValue) (fish : Fish) (fag : CStr) : List Piece :=
  [.lit "\x7bop:'hit fish',uid:", .int p.uid, .lit ",coin:", .int u.coin,
    .lit ",bullet_id:", .int (json.valueToInt "bullet_id".toList), .lit ",bx:",
    .int (json.valueToInt "bx".toList), .lit ",by:", .int (json.valueToInt "by".toList),
    .lit ",fish_id:", .int fish.id, .lit ",fx:", .int (json.valueToInt "fx".toList), .lit ",fy:",
    .int (json.valueToInt "fy".toList), .lit ",fag:", .str fag, .lit ",die:", .int 1,
    .lit ",ftype:", .int fish.type, .lit "\x7d"]

/-- What `viewOnline` shows of a user; without a user zeros and an empty name. -/
structure Shown where
  id : ℤ
  name : CStr
  coin : ℤ
  backupCoin : ℤ
  opTime : ℤ

def Shown.of (u : Option User) (backupCoin opTime : ℤ) : Shown :=
  match u with
  | some u => ⟨u.id, printName u.name, u.coin, backupCoin, opTime⟩
  | none => ⟨0, [], 0, 0, 0⟩

def Entry.viewOnlineText (p : Player) (u : Shown) (now : ℤ) : List Piece :=
  [.lit "\x7b'socket':", .int p.socket, .lit ", 'id':", .int u.id, .lit ", 'name':'", .str u.name,
    .lit "', 'coin':", .int u.coin, .lit ", 'backup_coin':", .int u.backupCoin, .lit ", 'room':",
    .int p.room, .lit ", 'seat':", .int p.seat, .lit ", 'hack':", .int (if p.hack then 1 else 0),
    .lit ", 'in_time':", .int p.inTime, .lit ", 'op_time':", .int u.opTime, .lit ", 'time':", .int now,
    .lit "\x7d,"]

def Entry.setSettingText (errors successes : ℕ) : List Piece :=
  [.lit "\x7b'op':'set setting', 'error':", .int errors, .lit ", 'success':", .int successes, .lit "\x7d"]

inductive Formatted
  | inRoom (p : Player) (u : User) (room seat : ℕ) (time : CStr)
  | verifyAccount (u : User) (time : CStr)
  | toShot (p : Player) (u : User) (json : JsonValue) (angle : CStr) (bullet : Bullet)
  | hitFish (p : Player) (u : User) (json : JsonValue) (fish : Fish) (fag : CStr)
  | viewOnline (p : Player) (u : Option User) (backupCoin opTime now : ℤ)
  | setSetting (errors successes : ℕ)

def Formatted.pieces : Formatted → List Piece
  | .inRoom p u room seat time => Entry.findRoomText p u room seat time
  | .verifyAccount u time => Thread.verifyText u time
  | .toShot p u json angle bullet => Entry.toShotText p u json angle bullet
  | .hitFish p u json fish fag => Entry.hitFishText p u json fish fag
  | .viewOnline p u backupCoin opTime now => Entry.viewOnlineText p (Shown.of u backupCoin opTime) now
  | .setSetting errors successes => Entry.setSettingText errors successes

def Formatted.buffer : Formatted → ℕ
  | .inRoom .. => 100
  | .verifyAccount .. => 128
  | .toShot .. => 200
  | .hitFish .. => 200
  | .viewOnline .. => 256
  | .setSetting .. => 128

def Formatted.Fits (f : Formatted) : Prop := (sprintf f.pieces).length + 1 ≤ f.buffer

/-- The numbers are ints, a time takes fourteen characters and a float at most forty-three. -/
def Formatted.Typed : Formatted → Prop
  | .inRoom p _ room seat time =>
    isInt p.uid = true ∧ isInt room = true ∧ isInt seat = true ∧ time.length = 14
  | .verifyAccount u time => isInt u.id = true ∧ isInt u.coin = true ∧ time.length = 14
  | .toShot p u _ angle bullet =>
    isInt p.uid = true ∧ isInt p.seat = true ∧ isInt u.coin = true ∧ isInt bullet.id = true ∧ angle.length ≤ 43
  | .hitFish p u _ fish fag =>
    isInt p.uid = true ∧ isInt u.coin = true ∧ isInt fish.id = true ∧ isInt fish.type = true ∧ fag.length ≤ 43
  | .viewOnline p u backupCoin opTime now =>
    isInt p.socket = true ∧ isInt p.room = true ∧ isInt p.seat = true ∧ isInt p.inTime = true ∧
      isInt backupCoin = true ∧ isInt opTime = true ∧ isInt now = true ∧
      ∀ v, u = some v → isInt v.id = true ∧ isInt v.coin = true
  | .setSetting errors successes => isInt errors = true ∧ isInt successes = true

/-- What the handler puts in takes no more than the buffer leaves for it. -/
def Formatted.Short : Formatted → Prop
  | .inRoom p u room seat _ => width p.uid + (printName u.name).length + width room + width seat ≤ 21
  | .verifyAccount u _ => width u.id + width u.coin + (printName u.name).length ≤ 41
  | .toShot .. => True
  | .hitFish p u json fish fag =>
    width p.uid + width u.coin + width (json.valueToInt "bullet_id".toList) +
      width (json.valueToInt "bx".toList) + width (json.valueToInt "by".toList) + width fish.id +
      width (json.valueToInt "fx".toList) + width (json.valueToInt "fy".toList) + fag.length +
      width fish.type ≤ 119
  | .viewOnline p u backupCoin opTime now =>
    let v := Shown.of u backupCoin opTime
    width p.socket + width v.id + v.name.length + width v.coin + width v.backupCoin + width p.room +
      width p.seat + width p.inTime + width v.opTime + width now ≤ 139
  | .setSetting .. => True

theorem atoi_isInt (s : CStr) : isInt (atoi s) = true := by
  unfold isInt atoi maxInt
  rw [Bool.and_eq_true, decide_eq_true_eq, decide_eq_true_eq]
  dsimp only
  constructor
  · exact le_max_of_le_left (by norm_num)
  · exact max_lt (by norm_num) (min_lt_of_left_lt (by norm_num))

theorem valueToInt_isInt (json : JsonValue) (key : CStr) : isInt (json.valueToInt key) = true := by
  unfold JsonValue.valueToInt
  cases json.value key with
  | none => rfl
  | some s => exact atoi_isInt s

theorem findRoomText_length (p : Player) (u : User) (room seat : ℕ) (time : CStr) :
    (sprintf (Entry.findRoomText p u room seat time)).length =
      64 + (width p.uid + (printName u.name).length + width room + width seat + time.length) := by
  have hlit : ((Entry.findRoomText p u room seat time).map Piece.literal).sum = 64 := by
    simp only [Entry.findRoomText, List.map_cons, List.sum_cons, List.map_nil, List.sum_nil, Piece.literal]
    decide +kernel
  rw [sprintf_length, hlit]
  simp only [Entry.findRoomText, List.map_cons, List.sum_cons, List.map_nil, List.sum_nil, Piece.filled]
  omega

theorem verifyText_length (u : User) (time : CStr) :
    (sprintf (Thread.verifyText u time)).length =
      72 + (width u.id + width u.coin + (printName u.name).length + time.length) := by
  have hlit : ((Thread.verifyText u time).map Piece.literal).sum = 72 := by
    simp only [Thread.verifyText, List.map_cons, List.sum_cons, List.map_nil, List.sum_nil, Piece.literal]
    decide +kernel
  rw [sprintf_length, hlit]
  simp only [Thread.verifyText, List.map_cons, List.sum_cons, List.map_nil, List.sum_nil, Piece.filled]
  omega

theorem toShotText_length (p : Player) (u : User) (json : JsonValue) (angle : CStr) (bullet : Bullet) :
    (sprintf (Entry.toShotText p u json angle bullet)).length =
      83 + (width p.uid + width p.seat + width u.coin + width (json.valueToInt "x".toList) +
        width (json.valueToInt "y".toList) + angle.length + width bullet.id) := by
  have hlit : ((Entry.toShotText p u json angle bullet).map Piece.literal).sum = 83 := by
    simp only [Entry.toShotText, List.map_cons, List.sum_cons, List.map_nil, List.sum_nil, Piece.literal]
    decide +kernel
  rw [sprintf_length, hlit]
  simp only [Entry.toShotText, List.map_cons, List.sum_cons, List.map_nil, List.sum_nil, Piece.filled]
  omega

theorem hitFishText_length (p : Player) (u : User) (json : JsonValue) (fish : Fish) (fag : CStr) :
    (sprintf (Entry.hitFishText p u json fish fag)).length =
      80 + (width p.uid + width u.coin + width (json.valueToInt "bullet_id".toList) +
        width (json.valueToInt "bx".toList) + width (json.valueToInt "by".toList) + width fish.id +
        width (json.valueToInt "fx".toList) + width (json.valueToInt "fy".toList) + fag.length +
        width fish.type) := by
  have hlit : ((Entry.hitFishText p u json fish fag).map Piece.literal).sum = 79 := by
    simp only [Entry.hitFishText, List.map_cons, List.sum_cons, List.map_nil, List.sum_nil, Piece.literal]
    decide +kernel
  have hdie : width 1 = 1 := by decide
  rw [sprintf_length, hlit]
  simp only [Entry.hitFishText, List.map_cons, List.sum_cons, List.map_nil, List.sum_nil, Piece.filled, hdie]
  ring

theorem width_hack (hack : Bool) : width (if hack then 1 else 0) = 1 := by
  cases hack <;> decide

theorem viewOnlineText_length (p : Player) (v : Shown) (now : ℤ) :
    (sprintf (Entry.viewOnlineText p v now)).length =
      116 + (width p.socket + width v.id + v.name.length + width v.coin + width v.backupCoin +
        width p.room + width p.seat + width p.inTime + width v.opTime + width now) := by
  have hlit : ((Entry.viewOnlineText p v now).map Piece.literal).sum = 115 := by
    simp only [Entry.viewOnlineText, List.map_cons, List.sum_cons, List.map_nil, List.sum_nil, Piece.literal]
    decide +kernel
  rw [sprintf_length, hlit]
  simp only [Entry.viewOnlineText, List.map_cons, List.sum_cons, List.map_nil, List.sum_nil, Piece.filled,
    width_hack]
  ring

theorem setSettingText_length (errors successes : ℕ) :
    (sprintf (Entry.setSettingText errors successes)).length = 42 + (width errors + width successes) := by
  have hlit : ((Entry.setSettingText errors successes).map Piece.literal).sum = 42 := by
    simp only [Entry.setSettingText, List.map_cons, List.sum_cons, List.map_nil, List.sum_nil, Piece.literal]
    decide +kernel
  rw [sprintf_length, hlit]
  simp only [Entry.setSettingText, List.map_cons, List.sum_cons, List.map_nil, List.sum_nil, Piece.filled]
  omega

/-- A text fits exactly when it is short. Shots and the answers to settings always do. -/
theorem fits_iff_short {f : Formatted} (h : f.Typed) : f.Fits ↔ f.Short := by
  cases f with
  | inRoom p u room seat time =>
    obtain ⟨-, -, -, htime⟩ := h
    change (sprintf (Entry.findRoomText p u room seat time)).length + 1 ≤ 100 ↔
      width p.uid + (printName u.name).length + width room + width seat ≤ 21
    rw [findRoomText_length]
    omega
  | verifyAccount u time =>
    obtain ⟨-, -, htime⟩ := h
    change (sprintf (Thread.verifyText u time)).length + 1 ≤ 128 ↔
      width u.id + width u.coin + (printName u.name).length ≤ 41
    rw [verifyText_length]
    omega
  | toShot p u json angle bullet =>
    obtain ⟨huid, hseat, hcoin, hid, hangle⟩ := h
    have huid := width_isInt huid
    have hseat := width_isInt hseat
    have hcoin := width_isInt hcoin
    have hid := width_isInt hid
    have hx := width_isInt (valueToInt_isInt json "x".toList)
    have hy := width_isInt (valueToInt_isInt json "y".toList)
    change (sprintf (Entry.toShotText p u json angle bullet)).length + 1 ≤ 200 ↔ True
    rw [toShotText_length, iff_true]
    omega
  | hitFish p u json fish fag =>
    change (sprintf (Entry.hitFishText p u json fish fag)).length + 1 ≤ 200 ↔ _ ≤ 119
    rw [hitFishText_length]
    omega
  | viewOnline p u backupCoin opTime now =>
    change (sprintf (Entry.viewOnlineText p (Shown.of u backupCoin opTime) now)).length + 1 ≤ 256 ↔ _ ≤ 139
    rw [viewOnlineText_length]
    omega
  | setSetting errors successes =>
    have herrors := width_isInt h.1
    have hsuccesses := width_isInt h.2
    change (sprintf (Entry.setSettingText errors successes)).length + 1 ≤ 128 ↔ True
    rw [setSettingText_length, iff_true]
    omega

def entering (name : String) : Formatted :=
  .inRoom { Player.zero with socket := 5, uid := 123456 }
    ⟨123456, 100, name.toList, [], ⟨false, false, false⟩⟩ 1 1 "1504883575.123".toList

theorem entering_typed (name : String) : (entering name).Typed := ⟨by decide, by decide, by decide, by decide⟩

theorem nick_fits : (entering "fisher").Fits := by
  have hshort : (entering "fisher").Short := by
    change width 123456 + (printName "fisher".toList).length + width 1 + width 1 ≤ 21
    decide +kernel
  exact (fits_iff_short (entering_typed "fisher")).mpr hshort

theorem nick_overflows : ¬ ∀ f : Formatted, f.Typed → f.Fits := by
  intro h
  have hfits := h (entering "sixteen letters!") (entering_typed "sixteen letters!")
  change (sprintf (Entry.findRoomText _ _ 1 1 "1504883575.123".toList)).length + 1 ≤ 100 at hfits
  rw [findRoomText_length] at hfits
  exact absurd hfits (by decide)

end FishServer
