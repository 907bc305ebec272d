import FishServer.RoomSteps
import FishServer.ReplyText
import FishServer.RoomLists
import FishServer.SessionRun

namespace FishServer

open LinkedList Printf Transition

/-! The fish of the rooms over whole runs of the server. -/

def Within (lo hi x : ℤ) : Prop := lo ≤ x ∧ x ≤ hi

/-- What `Fishs::create` draws, and the hit that a fish can take. -/
structure Fish.Drawn (setting : List SettingFish) (v : Fish) : Prop where
  id : Within 1 (maxInt - 1) v.id
  factor : Within 1 100 v.factor
  type : Within 0 22 v.type
  fish : v.fish ∈ setting
  across : (Within (-500) (-200) v.pointStart.x ∧ Within 1200 1500 v.pointEnd.x) ∨
    (Within 1200 1500 v.pointStart.x ∧ Within (-500) (-200) v.pointEnd.x)
  startY : Within 0 600 v.pointStart.y
  endY : Within 0 600 v.pointEnd.y
  ctr1 : Within 0 600 v.pointCtr1.x ∧ Within 0 600 v.pointCtr1.y
  ctr2 : Within 200 1000 v.pointCtr2.x ∧ Within 0 600 v.pointCtr2.y
  hitOnce : v.hitCoin = if v.isdel then 1 else 0

structure Fishs.Peopled (setting : List SettingFish) (o : Fishs) : Prop where
  counts : o.Counts
  few : o.list.len ≤ 10
  drawn : ∀ p v, o.list.value p = some v → v.Drawn setting

/-- `create` is what `%.3f` prints of the time. -/
def Fishs.fishJson (p : Fish) (create : CStr) : List Piece :=
  [.lit "\x7bop:'new fish', id:", .int p.id, .lit ", factor:", .int p.factor, .lit ", type:", .int p.type,
    .lit ", cp:[\x7bx:", .int p.pointStart.x, .lit ", y:", .int p.pointStart.y, .lit "\x7d,\x7bx:",
    .int p.pointCtr1.x, .lit ", y:", .int p.pointCtr1.y, .lit "\x7d,\x7bx:", .int p.pointCtr2.x, .lit ", y:",
    .int p.pointCtr2.y, .lit "\x7d,\x7bx:", .int p.pointEnd.x, .lit ", y:", .int p.pointEnd.y,
    .lit "\x7d], create:", .str create, .lit "\x7d"]

theorem myRandom_within (r : ℕ) {min max : ℤ} (h : min ≤ max) : Within min max (myRandom r min max) := by
  have hnonneg := Int.emod_nonneg (r : ℤ) (show max - min + 1 ≠ 0 by omega)
  have hlt := Int.emod_lt_of_pos (r : ℤ) (show 0 < max - min + 1 by omega)
  unfold Within myRandom
  omega

theorem make_drawn {setting : List SettingFish} (rand : ℕ → ℕ) {fish : SettingFish} (hfish : fish ∈ setting) (time : ℚ)
    {id : ℤ} (hid : Within 1 (maxInt - 1) id) : (Fish.make rand fish time id).Drawn setting where
  id := hid
  factor := myRandom_within _ (by norm_num)
  type := myRandom_within _ (by norm_num)
  fish := hfish
  across := by
    have hleft : Within (-500) (-200) (-myRandom (rand 1) 200 500) := by
      have := myRandom_within (rand 1) (show (200 : ℤ) ≤ 500 by norm_num)
      unfold Within at *
      omega
    have hright := myRandom_within (rand 2) (show (1200 : ℤ) ≤ 1500 by norm_num)
    unfold Fish.make
    dsimp only
    split_ifs
    · exact .inr ⟨hright, hleft⟩
    · exact .inl ⟨hleft, hright⟩
  startY := myRandom_within _ (by norm_num)
  endY := myRandom_within _ (by norm_num)
  ctr1 := ⟨myRandom_within _ (by norm_num), myRandom_within _ (by norm_num)⟩
  ctr2 := ⟨myRandom_within _ (by norm_num), myRandom_within _ (by norm_num)⟩
  hitOnce := rfl

section

variable {setting : List SettingFish} {o o' : Fishs}

theorem Fishs.Peopled.init : Fishs.Peopled setting Objects.init where
  counts := init_counts
  few := by decide
  drawn := fun p v hv => by cases hv

theorem getID_within (hc : o.Counts) {id : ℤ} (h : Objects.getID Fish.id Fishs.wraps o = some id) :
    Within 1 (maxInt - 1) id := by
  obtain ⟨h1, hm, -⟩ := idLoop_found Fishs.ringWraps hc.1 hc.2 h
  exact ⟨h1, hm⟩

theorem Fishs.Peopled.create {l : List ℕ} (h : o.Peopled setting) (hs : Objects.Sound Fish.id o l)
    (hlen : o.list.len < 10) {rand : ℕ → ℕ} {time : ℚ} {f : Option ℕ}
    (hc : Fishs.create o setting rand time = some (o', f)) : o'.Peopled setting := by
  unfold Fishs.create at hc
  by_cases hset : setting = []
  · rw [if_pos hset] at hc
    cases hc
  rw [if_neg hset] at hc
  split at hc
  · split_ifs at hc
    obtain ⟨id, hid, hp⟩ := Option.map_eq_some_iff.mp hc
    cases hp
    have hcounts : Objects.Counts { o with id := id } := Objects.getID_counts Fishs.ringWraps h.counts hid
    exact ⟨hcounts, h.few, h.drawn⟩
  · next fish hfish =>
    obtain ⟨⟨o'', p⟩, hp, he⟩ := Option.map_eq_some_iff.mp hc
    cases he
    have hmem := List.mem_of_getElem? hfish
    have hcounts := Objects.create_counts Fishs.ringWraps h.counts hp
    obtain ⟨hs', -, -⟩ := hs.create (fun _ => rfl) hp
    unfold Objects.create at hp
    split_ifs at hp
    obtain ⟨id, hid, hq⟩ := Option.map_eq_some_iff.mp hp
    cases hq
    refine ⟨hcounts, ?_, ?_⟩
    · have hlen' := hs'.holds.len
      have hold := hs.holds.len
      simp only [List.length_append, List.length_singleton] at hlen'
      simp only at hlen' ⊢
      omega
    · intro q v hv
      by_cases hq : q = o.list.fresh
      · rw [hq, DList.value_append_self] at hv
        cases hv
        exact make_drawn rand hmem time (getID_within h.counts hid)
      · rw [DList.value_append_of_ne _ _ hq] at hv
        exact h.drawn q v hv

theorem Fishs.Peopled.visit {l : List ℕ} (h : o.Peopled setting) (hs : Objects.Sound Fish.id o l) {p : ℕ}
    {next : Option ℕ} (hv : Thread.fishVisit o p = some (o', next)) : o'.Peopled setting := by
  rcases hs.visit hv with rfl | ⟨hp, rfl, -⟩
  · exact h
  · have hlen := (hs.remove hp).holds.len
    have hold := hs.holds.len
    have herase := List.length_erase_of_mem hp
    have hfew := h.few
    refine ⟨h.counts, ?_, ?_⟩
    · simp only at hlen ⊢
      omega
    · intro q v hq
      by_cases hqp : q = p
      · rw [hqp, DList.value_remove_self] at hq
        cases hq
      · rw [DList.value_remove_of_ne _ hqp] at hq
        exact h.drawn q v hq

theorem Fish.Drawn.taken {v : Fish} (h : v.Drawn setting) (hlive : v.isdel = false) :
    (Fish.free (Fish.hit (Fish.hold v))).Drawn setting := by
  have hzero : v.hitCoin = 0 := by rw [h.hitOnce, hlive, if_neg (by decide)]
  exact ⟨h.id, h.factor, h.type, h.fish, h.across, h.startY, h.endY, h.ctr1, h.ctr2,
    show v.hitCoin + 1 = 1 by rw [hzero, zero_add]⟩

theorem Fishs.Peopled.pay {l : List ℕ} (h : o.Peopled setting) (hs : Objects.Sound Fish.id o l) {id : ℤ} {f : ℕ}
    (hget : o.getFish id = some (o', some f)) :
    Fishs.Peopled setting { o' with list := (o'.list.modify Fish.hit f).modify Fish.free f } := by
  obtain ⟨v, hv, -, -, hlive, rfl⟩ := getFish_found hs hget
  refine ⟨h.counts, h.few, ?_⟩
  intro q w hq
  simp only [DList.modify_modify] at hq
  by_cases hqf : q = f
  · rw [hqf, DList.value_modify_self, hv] at hq
    cases hq
    exact (h.drawn f v hv).taken hlive
  · rw [DList.value_modify_of_ne _ _ hqf] at hq
    exact h.drawn q w hq

theorem FishStep.peopled {x : Option Fishs} (hstep : FishStep setting x (some o'))
    (hx : ∀ o, x = some o → o.Peopled setting ∧ ∃ l, Objects.Sound Fish.id o l) : o'.Peopled setting := by
  cases hstep with
  | same => exact (hx o' rfl).1
  | opened _ hnew => exact Fishs.Peopled.init.create Objects.sound_init (by decide) hnew
  | created hlen hnew =>
    obtain ⟨hp, l, hs⟩ := hx _ rfl
    exact hp.create hs hlen hnew
  | paid hget =>
    obtain ⟨hp, l, hs⟩ := hx _ rfl
    exact hp.pay hs hget
  | visited hv =>
    obtain ⟨hp, l, hs⟩ := hx _ rfl
    exact hp.visit hs hv

theorem width_within {x : ℤ} (k : ℕ) (hk : 0 < k) (hlo : -10 ^ k < x) (hhi : x < 10 ^ k) : width x ≤ k + 1 := by
  apply width_le hk
  zify
  rw [abs_lt]
  exact ⟨hlo, hhi⟩

theorem fishJson_length (p : Fish) (create : CStr) : (sprintf (Fishs.fishJson p create)).length =
    87 + (width p.id + width p.factor + width p.type + width p.pointStart.x + width p.pointStart.y +
      width p.pointCtr1.x + width p.pointCtr1.y + width p.pointCtr2.x + width p.pointCtr2.y + width p.pointEnd.x +
      width p.pointEnd.y + create.length) := by
  have hlit : ((Fishs.fishJson p create).map Piece.literal).sum = 87 := by
    simp only [Fishs.fishJson, List.map_cons, List.sum_cons, List.map_nil, List.sum_nil, Piece.literal]
    decide +kernel
  rw [sprintf_length, hlit]
  simp only [Fishs.fishJson, List.map_cons, List.sum_cons, List.map_nil, List.sum_nil, Piece.filled]
  ring

theorem Fish.Drawn.fits {v : Fish} (h : v.Drawn setting) {create : CStr} (hcreate : create.length ≤ 14) :
    (sprintf (Fishs.fishJson v create)).length + 1 ≤ 300 := by
  have short {x : ℤ} (hlo : -10 ^ 4 < x) (hhi : x < 10 ^ 4) : width x ≤ 5 := width_within 4 (by norm_num) hlo hhi
  have hid : width v.id ≤ 11 := by
    apply width_int
    · have := h.id.1
      omega
    · have := h.id.2
      unfold maxInt at this
      omega
  obtain ⟨-, ⟨f0, f1⟩, ⟨t0, t1⟩, -, hx, ⟨s0, s1⟩, ⟨e0, e1⟩, ⟨⟨a0, a1⟩, b0, b1⟩, ⟨⟨c0, c1⟩, d0, d1⟩, -⟩ := h
  have hsx : width v.pointStart.x ≤ 5 := by
    rcases hx with ⟨⟨x0, x1⟩, -⟩ | ⟨⟨x0, x1⟩, -⟩ <;> exact short (by omega) (by omega)
  have hex : width v.pointEnd.x ≤ 5 := by
    rcases hx with ⟨-, ⟨x0, x1⟩⟩ | ⟨-, ⟨x0, x1⟩⟩ <;> exact short (by omega) (by omega)
  have hf : width v.factor ≤ 5 := short (by omega) (by omega)
  have ht : width v.type ≤ 5 := short (by omega) (by omega)
  have hsy : width v.pointStart.y ≤ 5 := short (by omega) (by omega)
  have hey : width v.pointEnd.y ≤ 5 := short (by omega) (by omega)
  have hax : width v.pointCtr1.x ≤ 5 := short (by omega) (by omega)
  have hay : width v.pointCtr1.y ≤ 5 := short (by omega) (by omega)
  have hbx : width v.pointCtr2.x ≤ 5 := short (by omega) (by omega)
  have hby : width v.pointCtr2.y ≤ 5 := short (by omega) (by omega)
  rw [fishJson_length]
  omega

end

theorem peopled_reachable {signKey : CStr → ℤ} {ok : Server → Op → Prop} {maxRoom : ℕ} {outside : ℕ → Room}
    {fish : List SettingFish} {users : ℕ → User} {s : Server}
    (h : Reach (serverStep signKey) ok (Server.start maxRoom outside fish users) s) :
    s.fish = fish ∧ s.rooms.maxRoom = maxRoom ∧ s.rooms.Stocked [] ∧
      ∀ r < maxRoom, ∀ o, (s.rooms.room r).fishs = some o → o.Peopled fish := by
  refine h.invariant (P := fun s => s.fish = fish ∧ s.rooms.maxRoom = maxRoom ∧ s.rooms.Stocked [] ∧
    ∀ r < maxRoom, ∀ o, (s.rooms.room r).fishs = some o → o.Peopled fish) ?_ ?_
  · refine ⟨rfl, rfl, @stocked_reachable _ signKey ok maxRoom outside fish users .start, ?_⟩
    intro r hr o ho
    rw [show (Server.start maxRoom outside fish users).rooms.room r = Room.zero from if_pos hr] at ho
    cases ho
  · rintro s op t ⟨hfish, hmax, hstock, hs⟩ - ht
    have hsteps := serverStep_roomSteps ht
    refine ⟨hsteps.setting.trans hfish, hsteps.maxRoom.trans hmax, serverStep_stocked hstock ht, ?_⟩
    intro r hr o ho
    have hstep := hsteps.fishs r
    rw [ho, hfish] at hstep
    refine hstep.peopled ?_
    intro x hx
    exact ⟨hs r hr x hx, (hstock.fishs r x (hmax ▸ hr) hx).sound⟩

/-- In every room a list of at most ten fish that nobody holds, each drawn in range, hit at most once and short
enough for its text. -/
theorem fish_population {signKey : CStr → ℤ} {ok : Server → Op → Prop} {maxRoom : ℕ} {outside : ℕ → Room}
    {fish : List SettingFish} {users : ℕ → User} {s : Server}
    (h : Reach (serverStep signKey) ok (Server.start maxRoom outside fish users) s) {r : ℕ} {o : Fishs}
    (hr : r < maxRoom) (ho : (s.rooms.room r).fishs = some o) :
    ∃ l, Objects.Sound Fish.id o l ∧ l.length ≤ 10 ∧ ∀ p v, o.list.value p = some v → v.lock = false ∧ v.Drawn fish ∧
      ∀ create : CStr, create.length ≤ 14 → (sprintf (Fishs.fishJson v create)).length + 1 ≤ 300 := by
  obtain ⟨-, hmax, hstock, hrooms⟩ := peopled_reachable h
  have hp := hrooms r hr o ho
  have hstocked := hstock.fishs r o (hmax ▸ hr) ho
  obtain ⟨l, hs⟩ := hstocked.sound
  refine ⟨l, hs, ?_, ?_⟩
  · have hlen := hs.holds.len
    have hfew := hp.few
    omega
  · intro p v hv
    exact ⟨hstocked.unlocked p v hv, hp.drawn p v hv, fun _ hcreate => (hp.drawn p v hv).fits hcreate⟩

theorem first_fish_drawn : ∃ (s : Server) (o : Fishs), (s.rooms.room 0).fishs = some o ∧ o.list.len = 1 ∧
    ∃ l, Objects.Sound Fish.id o l ∧ l.length ≤ 10 ∧
      ∀ p v, o.list.value p = some v → v.lock = false ∧ v.Drawn [⟨1, 1, 1⟩] ∧
        ∀ create : CStr, create.length ≤ 14 → (sprintf (Fishs.fishJson v create)).length + 1 ≤ 300 := by
  have hrun : (runIf (serverStep sampleKey) (fun _ _ => true) sampleServer (enter 0 5 ['a'] ++ [inRoom 0])).any
      (fun s => (s.rooms.room 0).fishs.any (fun o => decide (o.list.len = 1))) = true := by decide +kernel
  obtain ⟨s, hs, htest⟩ := (Option.any_eq_true _ _).mp hrun
  obtain ⟨o, ho, hlen⟩ := (Option.any_eq_true _ _).mp htest
  exact ⟨s, o, ho, of_decide_eq_true hlen, fish_population (Reach.of_runIf hs) (by decide) ho⟩

end FishServer
