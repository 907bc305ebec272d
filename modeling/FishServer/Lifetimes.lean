import FishServer.Progress

namespace FishServer

open Transition

/-! The accounts over all their sessions on one database. -/

/-- `live` are the users that are logged in. The fish killed and the coins won since the start are counted in
`killed` and `earned`, which no function reads. -/
structure Lifetimes where
  db : Db
  live : ℤ → Option Account
  killed : ℤ → ℤ → ℕ
  earned : ℤ → ℤ

inductive LifeOp
  | login (uid now : ℤ)
  | kill (uid no : ℤ)
  | earn (uid coins : ℤ)
  | save (uid now : ℤ)
  | leave (uid now : ℤ)

namespace Lifetimes

def start (db : Db) : Lifetimes := ⟨db, fun _ => none, fun _ _ => 0, fun _ => 0⟩

def setLive (s : Lifetimes) (uid : ℤ) (a : Option Account) : Lifetimes :=
  { s with live := Function.update s.live uid a }

def load (s : Lifetimes) (uid now : ℤ) : Lifetimes := s.setLive uid (some (Account.load s.db uid now))

def kill (s : Lifetimes) (uid no : ℤ) (a : Account) : Lifetimes :=
  { s.setLive uid (some (a.killFish no)) with
    killed := Function.update s.killed uid (Function.update (s.killed uid) no (s.killed uid no + 1)) }

def earn (s : Lifetimes) (uid coins : ℤ) (a : Account) : Lifetimes :=
  { s.setLive uid (some { a with coin := i32 (a.coin + coins) }) with
    earned := Function.update s.earned uid (s.earned uid + coins) }

def save (s : Lifetimes) (uid now : ℤ) (a : Account) : Lifetimes :=
  { s.setLive uid (some (Account.save Sql.allGood now a s.db).1) with
    db := (Account.save Sql.allGood now a s.db).2 }

def leave (s : Lifetimes) (uid now : ℤ) (a : Account) : Lifetimes :=
  { s.setLive uid none with db := (Account.save Sql.allGood now a s.db).2 }

def step (s : Lifetimes) : LifeOp → Option Lifetimes
  | .login uid now => if uid ≠ 0 ∧ s.live uid = none then some (s.load uid now) else none
  | .kill uid no => (s.live uid).map (s.kill uid no)
  | .earn uid coins => (s.live uid).map (s.earn uid coins)
  | .save uid now => (s.live uid).map (s.save uid now)
  | .leave uid now => (s.live uid).map (s.leave uid now)

def inserts (s : Lifetimes) (uid : ℤ) : Bool :=
  (s.live uid).all (fun a => a.killfish.all (fun k => !k.isChange || decide (k.id ≠ 0) ||
    (killRows s.db.values uid k.no).isEmpty))

def insertsOnce (s : Lifetimes) : LifeOp → Bool
  | .save uid _ => s.inserts uid
  | .leave uid _ => s.inserts uid
  | _ => true

def counted (s : Lifetimes) (uid no : ℤ) : ℤ := killCount no ((s.live uid).elim (s.db.loadKills uid) Account.killfish)

def coins (s : Lifetimes) (uid : ℤ) : ℤ := (s.live uid).elim (s.db.getCoin uid) Account.coin

end Lifetimes

def OwnRow (uid : ℤ) (t : Table ValueRow) (k : KillFish) : Prop :=
  k.id ≠ 0 → ∃ r, (k.id, r) ∈ t.rows ∧ r.userId = uid

theorem RecordOk.own {uid : ℤ} {t : Table ValueRow} {k : KillFish} (h : RecordOk uid t k) : OwnRow uid t k := by
  intro hid
  obtain ⟨v, hrow, -⟩ := h.held hid
  have hmem : (k.id, killRow uid k v) ∈ killRows t uid k.no := by
    rw [hrow]
    exact List.mem_singleton_self _
  obtain ⟨hin, huser, -⟩ := mem_killRows.mp hmem
  exact ⟨_, hin, huser⟩

theorem OwnRow.write {uid : ℤ} {t : Table ValueRow} {k : KillFish} (h : OwnRow uid t k) (k' : KillFish) :
    OwnRow uid (writeKill uid k' t) k := by
  intro hid
  obtain ⟨r, hin, huser⟩ := h hid
  unfold writeKill
  split_ifs with hnew
  · refine ⟨if k.id = k'.id then { r with value := k'.value } else r, ?_, ?_⟩
    · refine List.mem_map.mpr ⟨(k.id, r), hin, ?_⟩
      dsimp only
      split_ifs <;> rfl
    · split_ifs <;> exact huser
  · exact ⟨r, List.mem_append_left _ hin, huser⟩

theorem writeKill_other {uid other no : ℤ} (hne : other ≠ uid) {t : Table ValueRow} {k : KillFish} (hkeyed : t.Keyed)
    (h : OwnRow uid t k) : killRows (writeKill uid k t) other no = killRows t other no := by
  unfold writeKill
  split_ifs with hid
  · obtain ⟨r, hin, huser⟩ := h hid
    refine hkeyed.select_update_other (p := fun r => decide (r.userId = uid)) (r := r) (fun _ => rfl) ?_ ?_
    · exact List.mem_filter.mpr ⟨hin, decide_eq_true huser⟩
    · simp [ofSpecies, Db.isKill, huser, hne.symm]
  · apply Table.select_insert_neg
    simp [ofSpecies, Db.isKill, hne.symm]

theorem saveKills_other {uid other no : ℤ} (hne : other ≠ uid) {ks : List KillFish} {t : Table ValueRow} (n : ℕ)
    (hkeyed : t.Keyed) (h : ∀ k ∈ ks, OwnRow uid t k) :
    killRows (saveKills Sql.allGood uid n ks t).2 other no = killRows t other no := by
  induction ks generalizing n t with
  | nil => rfl
  | cons k ks ih =>
    rw [saveKills]
    have hk := h k List.mem_cons_self
    have htail : ∀ k' ∈ ks, OwnRow uid t k' := fun k' hk' => h k' (List.mem_cons_of_mem k hk')
    split_ifs
    · have hrest := @ih (writeKill uid k t) (n + 1) (writeKill_keyed hkeyed k) (fun k' hk' => (htail k' hk').write k)
      exact hrest.trans (writeKill_other hne hkeyed hk)
    · exact @ih t (n + 1) hkeyed htail

theorem killCount_kill (no n : ℤ) (ks : List KillFish) :
    killCount n (killFish no ks) = if n = no then i32 (killCount n ks + 1) else killCount n ks := by
  induction ks with
  | nil =>
    rw [killFish, killCount, killCount]
    by_cases hn : n = no
    · rw [if_pos hn.symm, if_pos hn]
      rfl
    · rw [if_neg (fun h => hn h.symm), if_neg hn, killCount]
  | cons k ks ih =>
    rw [killFish]
    by_cases hk : k.no = no
    · rw [if_pos hk, killCount, killCount, hk]
      by_cases hn : n = no
      · rw [if_pos hn.symm, if_pos hn, if_pos hn.symm]
      · rw [if_neg (fun h => hn h.symm), if_neg hn, if_neg (fun h => hn h.symm)]
    · rw [if_neg hk, killCount, killCount, ih]
      by_cases hn : k.no = n
      · rw [if_pos hn, if_pos hn, if_neg (fun h => hk (hn.trans h))]
      · rw [if_neg hn, if_neg hn]

theorem Synced.reads {uid : ℤ} {ks : List KillFish} {t : Table ValueRow} (h : Synced uid ks t)
    (hsaved : ∀ k ∈ ks, k.isChange = false) {no : ℤ} (hno : no ≠ 0) :
    ((killRows t uid no).map (fun e => e.2.value)).headD 0 = killCount no ks := by
  by_cases hmem : no ∈ ks.map KillFish.no
  · obtain ⟨k, hk, rfl⟩ := List.mem_map.mp hmem
    rw [h.count hsaved hk]
    rfl
  · rw [h.absent no hno hmem, killCount_of_notMem hmem]
    rfl

theorem Synced.frame {uid : ℤ} {ks : List KillFish} {t t' : Table ValueRow} (h : Synced uid ks t) (hkeyed : t'.Keyed)
    (hrows : ∀ no, killRows t' uid no = killRows t uid no) : Synced uid ks t' where
  keyed := hkeyed
  species := h.species
  records := fun k hk => (h.records k hk).congr (hrows k.no)
  absent := fun no hno hmiss => (hrows no).trans (h.absent no hno hmiss)

structure SavedBy (uid : ℤ) (a : Account) (d : Db) (b : Account) (e : Db) : Prop where
  id : b.id = uid
  keyed : e.values.Keyed
  synced : Synced uid b.killfish e.values
  written : ∀ k ∈ b.killfish, k.isChange = false
  counts : ∀ no, killCount no b.killfish = killCount no a.killfish
  rows : ∀ other no, other ≠ uid → killRows e.values other no = killRows d.values other no
  one : ∀ no, no ∉ a.killfish.map KillFish.no → killRows e.values uid no = killRows d.values uid no
  balance : ∀ other, other ≠ uid → e.balance other = d.balance other
  same : (e.balance uid).isSome = (d.balance uid).isSome
  coin : ∀ m, d.balance uid = some m → a.backupCoin = m → isInt a.coin = true →
    b.coin = a.coin ∧ b.backupCoin = a.coin ∧ e.balance uid = some a.coin

theorem save_coins {a : Account} (d : Db) (now : ℤ) (hid : a.id ≠ 0) :
    ((Account.save Sql.allGood now a d).1.coin, (Account.save Sql.allGood now a d).1.backupCoin,
      (Account.save Sql.allGood now a d).2.balance) =
    if a.coin = a.backupCoin then (a.coin, a.backupCoin, d.balance)
    else (i32 (d.getCoin a.id + i32 (a.coin - a.backupCoin)), i32 (d.getCoin a.id + i32 (a.coin - a.backupCoin)),
      (d.setBalance a.id (i32 (d.getCoin a.id + i32 (a.coin - a.backupCoin)))).balance) := by
  unfold Account.save
  rw [if_neg hid]
  by_cases hcoin : a.coin = a.backupCoin
  · simp [Account.saveCoin, hcoin]
  · simp [Account.saveCoin, hcoin, Db.setBalance, Sql.allGood]

theorem account_saved {uid : ℤ} {a : Account} {d : Db} (huid : uid ≠ 0) (hid : a.id = uid)
    (h : Synced uid a.killfish d.values) (hfresh : ∀ k ∈ a.killfish, Fresh uid d.values k) (now : ℤ) :
    SavedBy uid a d (Account.save Sql.allGood now a d).1 (Account.save Sql.allGood now a d).2 := by
  subst hid
  obtain ⟨hsame, -, hkills, hvalues, -⟩ := save_parts d now huid
  have hcoins := save_coins d now huid
  have hsync := h.save 0 hfresh
  have hsaved := saveKills_saved 0 h.keyed h.species h.records hfresh
  rw [← hvalues] at hsaved
  rw [← hkills, ← hvalues] at hsync
  simp only [Prod.ext_iff] at hcoins
  refine ⟨hsame, hsync.keyed, hsync, ?_, ?_, ?_, hsaved.frame, ?_, ?_, ?_⟩
  · rw [hkills, saveKills_records]
    intro k' hk'
    obtain ⟨k, -, rfl⟩ := List.mem_map.mp hk'
    rfl
  · intro no
    rw [hkills, saveKills_records, killCount_marked]
  · intro other no hne
    rw [hvalues]
    exact saveKills_other hne 0 h.keyed (fun k hk => (h.records k hk).own)
  · intro other hne
    rw [hcoins.2.2]
    split_ifs
    · rfl
    · exact Function.update_of_ne hne ..
  · rw [hcoins.2.2]
    split_ifs
    · rfl
    · unfold Db.setBalance
      simp only [Function.update_self, Option.isSome_map]
  · intro m hm hback hint
    have hget : d.getCoin a.id = a.backupCoin := by rw [Db.getCoin, hm, Option.getD_some, hback]
    have hsum : i32 (a.backupCoin + i32 (a.coin - a.backupCoin)) = a.coin := by
      rw [i32_add_i32, show a.backupCoin + (a.coin - a.backupCoin) = a.coin by omega, i32_of_isInt hint]
    rw [hcoins.1, hcoins.2.1, hcoins.2.2, hget, hsum]
    split_ifs with hcoin
    · exact ⟨rfl, hcoin.symm, hm.trans (by rw [hcoin, hback])⟩
    · refine ⟨rfl, rfl, ?_⟩
      unfold Db.setBalance
      simp only [Function.update_self, hm, Option.map_some]

namespace Lifetimes

structure Bound (s : Lifetimes) (uid : ℤ) (a : Account) : Prop where
  nonzero : uid ≠ 0
  id : a.id = uid
  synced : Synced uid a.killfish s.db.values
  backup : ∀ m, s.db.balance uid = some m → a.backupCoin = m

structure Sound (db : Db) (s : Lifetimes) : Prop where
  keyed : s.db.values.Keyed
  one : ∀ uid no, no ≠ 0 → (killRows s.db.values uid no).length ≤ 1
  live : ∀ uid a, s.live uid = some a → s.Bound uid a
  counted : ∀ uid no, no ≠ 0 → s.counted uid no = i32 (killCount no (db.loadKills uid) + s.killed uid no)
  held : ∀ uid, (s.db.balance uid).isSome = (db.balance uid).isSome
  coins : ∀ uid m, db.balance uid = some m → s.coins uid = i32 (m + s.earned uid)

variable {db : Db} {s t : Lifetimes} {uid now : ℤ} {a : Account}

theorem counted_live (h : s.live uid = some a) (no : ℤ) : s.counted uid no = killCount no a.killfish := by
  rw [counted, h]
  rfl

theorem coins_live (h : s.live uid = some a) : s.coins uid = a.coin := by
  rw [coins, h]
  rfl

theorem counted_congr {other : ℤ} (hlive : t.live other = s.live other)
    (hrows : ∀ no, killRows t.db.values other no = killRows s.db.values other no) {no : ℤ} (hno : no ≠ 0) :
    t.counted other no = s.counted other no := by
  rw [counted, counted, hlive]
  cases s.live other with
  | none =>
    change killCount no (t.db.loadKills other) = killCount no (s.db.loadKills other)
    rw [killCount_loaded _ _ hno, killCount_loaded _ _ hno, hrows]
  | some b => rfl

theorem coins_congr {other : ℤ} (hlive : t.live other = s.live other) (hb : t.db.balance other = s.db.balance other) :
    t.coins other = s.coins other := by
  rw [coins, coins, hlive, Db.getCoin, Db.getCoin, hb]

theorem Sound.live_of (h : s.Sound db) (hlive : t.live = Function.update s.live uid (some a))
    (hrows : ∀ other no, other ≠ uid → killRows t.db.values other no = killRows s.db.values other no)
    (hkeyed : t.db.values.Keyed) (hb : ∀ other, other ≠ uid → t.db.balance other = s.db.balance other)
    (ha : t.Bound uid a) : ∀ other b, t.live other = some b → t.Bound other b := by
  intro other b hother
  rw [hlive] at hother
  by_cases hne : other = uid
  · subst hne
    rw [Function.update_self] at hother
    cases hother
    exact ha
  · rw [Function.update_of_ne hne] at hother
    have hold := h.live other b hother
    exact ⟨hold.nonzero, hold.id, hold.synced.frame hkeyed (fun no => hrows other no hne), hb other hne ▸ hold.backup⟩

theorem Sound.load (h : s.Sound db) (huid : uid ≠ 0) (hfree : s.live uid = none) (now : ℤ) :
    (s.load uid now).Sound db := by
  have hself : (s.load uid now).live uid = some (Account.load s.db uid now) := Function.update_self ..
  have hother : ∀ other, other ≠ uid → (s.load uid now).live other = s.live other :=
    fun other hne => Function.update_of_ne hne ..
  refine ⟨h.keyed, h.one, ?_, ?_, h.held, ?_⟩
  · refine @Sound.live_of _ s (s.load uid now) uid _ h rfl (fun _ _ _ => rfl) h.keyed (fun _ _ => rfl) ?_
    refine ⟨huid, rfl, synced_load h.keyed (h.one uid), ?_⟩
    intro m hm
    change s.db.getCoin uid = m
    rw [Db.getCoin, show s.db.balance uid = some m from hm]
    rfl
  · intro other no hno
    have hbefore := h.counted other no hno
    by_cases hne : other = uid
    · subst hne
      rw [Lifetimes.counted, hfree] at hbefore
      rw [counted_live hself]
      exact hbefore
    · exact (counted_congr (hother other hne) (fun _ => rfl) hno).trans hbefore
  · intro other m hm
    have hbefore := h.coins other m hm
    by_cases hne : other = uid
    · subst hne
      rw [Lifetimes.coins, hfree] at hbefore
      rw [coins_live hself]
      exact hbefore
    · exact (coins_congr (hother other hne) rfl).trans hbefore

theorem Sound.kill (h : s.Sound db) (ha : s.live uid = some a) (no : ℤ) : (s.kill uid no a).Sound db := by
  have hself : (s.kill uid no a).live uid = some (a.killFish no) := Function.update_self ..
  have hother : ∀ other, other ≠ uid → (s.kill uid no a).live other = s.live other :=
    fun other hne => Function.update_of_ne hne ..
  have hold := h.live uid a ha
  refine ⟨h.keyed, h.one, ?_, ?_, h.held, ?_⟩
  · refine @Sound.live_of _ s (s.kill uid no a) uid _ h rfl (fun _ _ _ => rfl) h.keyed (fun _ _ => rfl) ?_
    exact ⟨hold.nonzero, hold.id, hold.synced.kill no, hold.backup⟩
  · intro other n hn
    have hbefore := h.counted other n hn
    by_cases hne : other = uid
    · subst hne
      rw [counted_live ha] at hbefore
      rw [counted_live hself, show (a.killFish no).killfish = killFish no a.killfish from rfl, killCount_kill]
      change _ = i32 (_ + (Function.update s.killed other _ other n : ℕ))
      rw [Function.update_self, hbefore]
      by_cases hspecies : n = no
      · subst hspecies
        rw [if_pos rfl, Function.update_self, i32_succ, add_assoc]
        norm_cast
      · rw [if_neg hspecies, Function.update_of_ne hspecies]
    · change _ = i32 (_ + (Function.update s.killed uid _ other n : ℕ))
      rw [Function.update_of_ne hne]
      exact (counted_congr (hother other hne) (fun _ => rfl) hn).trans hbefore
  · intro other m hm
    have hbefore := h.coins other m hm
    by_cases hne : other = uid
    · subst hne
      rw [coins_live ha] at hbefore
      rw [coins_live hself]
      exact hbefore
    · exact (coins_congr (hother other hne) rfl).trans hbefore

theorem Sound.earn (h : s.Sound db) (ha : s.live uid = some a) (coins : ℤ) : (s.earn uid coins a).Sound db := by
  have hself : (s.earn uid coins a).live uid = some { a with coin := i32 (a.coin + coins) } := Function.update_self ..
  have hother : ∀ other, other ≠ uid → (s.earn uid coins a).live other = s.live other :=
    fun other hne => Function.update_of_ne hne ..
  have hold := h.live uid a ha
  refine ⟨h.keyed, h.one, ?_, ?_, h.held, ?_⟩
  · refine @Sound.live_of _ s (s.earn uid coins a) uid _ h rfl (fun _ _ _ => rfl) h.keyed (fun _ _ => rfl) ?_
    exact ⟨hold.nonzero, hold.id, hold.synced, hold.backup⟩
  · intro other n hn
    have hbefore := h.counted other n hn
    by_cases hne : other = uid
    · subst hne
      rw [counted_live ha] at hbefore
      rw [counted_live hself]
      exact hbefore
    · exact (counted_congr (hother other hne) (fun _ => rfl) hn).trans hbefore
  · intro other m hm
    have hbefore := h.coins other m hm
    by_cases hne : other = uid
    · subst hne
      rw [coins_live ha] at hbefore
      rw [coins_live hself]
      change i32 (a.coin + coins) = i32 (m + Function.update s.earned other _ other)
      rw [Function.update_self, hbefore, add_comm (i32 _) coins, i32_add_i32]
      congr 1
      ring
    · change _ = i32 (m + Function.update s.earned uid _ other)
      rw [Function.update_of_ne hne]
      exact (coins_congr (hother other hne) rfl).trans hbefore

theorem Sound.isInt_coin (h : s.Sound db) (ha : s.live uid = some a) {m : ℤ} (hm : s.db.balance uid = some m) :
    isInt a.coin = true := by
  have hsome := h.held uid
  rw [hm] at hsome
  obtain ⟨m₀, hm₀⟩ := Option.isSome_iff_exists.mp hsome.symm
  have hcoin := h.coins uid m₀ hm₀
  rw [coins_live ha] at hcoin
  rw [hcoin]
  exact isInt_i32 _

theorem Sound.store (h : s.Sound db) (ha : s.live uid = some a) {b : Account} (hs : SavedBy uid a s.db b t.db)
    {x : Option Account} (hx : x = some b ∨ x = none) (hlive : t.live = Function.update s.live uid x)
    (hkilled : t.killed = s.killed) (hearned : t.earned = s.earned) : t.Sound db := by
  have hold := h.live uid a ha
  have hself : t.live uid = x := by rw [hlive, Function.update_self]
  have hother : ∀ other, other ≠ uid → t.live other = s.live other :=
    fun other hne => by rw [hlive, Function.update_of_ne hne]
  have hcoin : ∀ m, s.db.balance uid = some m → b.coin = a.coin ∧ b.backupCoin = a.coin ∧
      t.db.balance uid = some a.coin :=
    fun m hm => hs.coin m hm (hold.backup m hm) (h.isInt_coin ha hm)
  refine ⟨hs.keyed, ?_, ?_, ?_, ?_, ?_⟩
  · intro other no hno
    by_cases hne : other = uid
    · subst hne
      by_cases hmem : no ∈ b.killfish.map KillFish.no
      · obtain ⟨k, hk, rfl⟩ := List.mem_map.mp hmem
        have hlen := congrArg List.length (hs.synced.count hs.written hk)
        rw [List.length_map, List.length_singleton] at hlen
        exact hlen.le
      · rw [hs.synced.absent no hno hmem]
        exact Nat.zero_le 1
    · rw [hs.rows other no hne]
      exact h.one other no hno
  · rcases hx with rfl | rfl
    · refine h.live_of hlive hs.rows hs.keyed hs.balance ⟨hold.nonzero, hs.id, hs.synced, ?_⟩
      intro m hm
      obtain ⟨m', hm'⟩ := Option.isSome_iff_exists.mp (hs.same.symm.trans (by rw [hm]; rfl))
      obtain ⟨-, hback, hstored⟩ := hcoin m' hm'
      rw [hback]
      exact Option.some.inj (hstored.symm.trans hm)
    · intro other b' hb'
      by_cases hne : other = uid
      · rw [hne, hself] at hb'
        cases hb'
      · rw [hother other hne] at hb'
        have hkept := h.live other b' hb'
        exact ⟨hkept.nonzero, hkept.id, hkept.synced.frame hs.keyed (fun no => hs.rows other no hne),
          hs.balance other hne ▸ hkept.backup⟩
  · intro other no hno
    rw [hkilled]
    refine Eq.trans ?_ (h.counted other no hno)
    by_cases hne : other = uid
    · subst hne
      rw [counted_live ha, ← hs.counts no]
      rcases hx with rfl | rfl
      · exact counted_live hself no
      · rw [Lifetimes.counted, hself]
        exact (killCount_loaded _ _ hno).trans (hs.synced.reads hs.written hno)
    · exact counted_congr (hother other hne) (fun no => hs.rows other no hne) hno
  · intro other
    by_cases hne : other = uid
    · rw [hne, hs.same, h.held]
    · rw [hs.balance other hne, h.held]
  · intro other m hm
    rw [hearned]
    refine Eq.trans ?_ (h.coins other m hm)
    by_cases hne : other = uid
    · subst hne
      have hsome := h.held other
      rw [hm] at hsome
      obtain ⟨m', hm'⟩ := Option.isSome_iff_exists.mp hsome
      obtain ⟨hb, -, hstored⟩ := hcoin m' hm'
      rw [coins_live ha]
      rcases hx with rfl | rfl
      · rw [coins_live hself, hb]
      · rw [Lifetimes.coins, hself]
        change t.db.getCoin other = _
        rw [Db.getCoin, hstored]
        rfl
    · exact coins_congr (hother other hne) (hs.balance other hne)

theorem inserts_fresh (ha : s.live uid = some a) (h : s.inserts uid = true) :
    ∀ k ∈ a.killfish, Fresh uid s.db.values k := by
  intro k hk hchange hid
  rw [inserts, ha, Option.all_some, List.all_eq_true] at h
  have hk := h k hk
  rw [hchange, hid] at hk
  simpa using hk

theorem Sound.step {op : LifeOp} (h : s.Sound db) (hok : s.insertsOnce op = true) (ht : s.step op = some t) :
    t.Sound db := by
  cases op with
  | login uid now =>
    rw [Lifetimes.step] at ht
    split_ifs at ht with hfree
    cases ht
    exact h.load hfree.1 hfree.2 now
  | kill uid no =>
    obtain ⟨a, ha, rfl⟩ := Option.map_eq_some_iff.mp ht
    exact h.kill ha no
  | earn uid coins =>
    obtain ⟨a, ha, rfl⟩ := Option.map_eq_some_iff.mp ht
    exact h.earn ha coins
  | save uid now =>
    obtain ⟨a, ha, rfl⟩ := Option.map_eq_some_iff.mp ht
    have hold := h.live uid a ha
    have hs := account_saved hold.nonzero hold.id hold.synced (inserts_fresh ha hok) now
    exact h.store ha hs (.inl rfl) rfl rfl rfl
  | leave uid now =>
    obtain ⟨a, ha, rfl⟩ := Option.map_eq_some_iff.mp ht
    have hold := h.live uid a ha
    have hs := account_saved hold.nonzero hold.id hold.synced (inserts_fresh ha hok) now
    exact h.store ha hs (.inr rfl) rfl rfl rfl

end Lifetimes

/-- Sessions of any accounts in any order add up, in the users that are logged in and in the rows of the others, as
long as no save inserts a record a second time. -/
theorem sessions_add_up {db : Db} (hkeyed : db.values.Keyed)
    (hone : ∀ uid no, no ≠ 0 → (killRows db.values uid no).length ≤ 1)
    (hkills : ∀ uid no, isInt (killCount no (db.loadKills uid)) = true)
    (hcoins : ∀ uid m, db.balance uid = some m → isInt m = true) {s : Lifetimes}
    (h : Reach Lifetimes.step (fun s op => s.insertsOnce op = true) (Lifetimes.start db) s) (uid : ℤ) :
    (∀ no, no ≠ 0 → s.counted uid no = i32 (killCount no (db.loadKills uid) + s.killed uid no) ∧
      (killRows s.db.values uid no).length ≤ 1) ∧
    ∀ m, db.balance uid = some m → s.coins uid = i32 (m + s.earned uid) := by
  have hsound : s.Sound db := by
    apply h.invariant (P := fun s => s.Sound db)
    · refine ⟨hkeyed, hone, ?_, ?_, fun _ => rfl, ?_⟩
      · intro uid a ha
        cases ha
      · intro uid no _
        change _ = i32 (_ + ((0 : ℕ) : ℤ))
        rw [Nat.cast_zero, add_zero, i32_of_isInt (hkills uid no)]
        rfl
      · intro uid m hm
        change db.getCoin uid = i32 (m + 0)
        rw [add_zero, i32_of_isInt (hcoins uid m hm), Db.getCoin, hm]
        rfl
    · exact fun s op t hs hok ht => hs.step hok ht
  exact ⟨fun no hno => ⟨hsound.counted uid no hno, hsound.one uid no hno⟩, hsound.coins uid⟩

def twoSessions : List LifeOp := [.login 7 0, .kill 7 4, .login 8 1, .kill 7 3, .kill 8 4, .earn 7 6, .leave 7 2,
  .login 7 3, .kill 7 4, .save 7 4, .earn 7 (-1), .kill 7 4, .leave 8 5, .leave 7 6]

def richDb : Db := { recordedDb with balance := fun uid => if uid = 7 then some 40 else none }

theorem two_sessions_add_up : ∃ s : Lifetimes, (s.counted 7 4, s.counted 7 3, s.coins 7) = (3, 3, 45) ∧
    (s.live 7, s.db.balance 7) = (none, some 45) ∧
      (∀ no, no ≠ 0 → s.counted 7 no = i32 (killCount no (richDb.loadKills 7) + s.killed 7 no) ∧
        (killRows s.db.values 7 no).length ≤ 1) ∧
      ∀ m, richDb.balance 7 = some m → s.coins 7 = i32 (m + s.earned 7) := by
  have hrun : ((runIf Lifetimes.step Lifetimes.insertsOnce (Lifetimes.start richDb) twoSessions).map (fun s =>
      ((s.counted 7 4, s.counted 7 3, s.coins 7), s.live 7, s.db.balance 7))) =
        some ((3, 3, 45), none, some 45) := by decide +kernel
  obtain ⟨s, hs, hh⟩ := Option.map_eq_some_iff.mp hrun
  obtain ⟨hcounts, hleft⟩ := Prod.mk.inj hh
  refine ⟨s, hcounts, hleft, sessions_add_up (Table.keyed_empty.insert _) ?_ ?_ ?_ (Reach.of_runIf hs) 7⟩
  · intro uid no _
    exact List.length_filter_le _ _
  · intro uid no
    by_cases hno : no = 0
    · rw [hno, not_loaded_zero]
      rfl
    · rw [killCount_loaded _ _ hno, killRows, Table.select]
      change isInt (((List.filter _ [(1, (⟨7, 3, 2, killType⟩ : ValueRow))]).map _).headD 0) = true
      rw [List.filter_singleton]
      cases ofSpecies uid no ⟨7, 3, 2, killType⟩ <;> rfl
  · intro uid m hm
    change (if uid = 7 then some (40 : ℤ) else none) = some m at hm
    split_ifs at hm
    cases hm
    rfl

end FishServer
