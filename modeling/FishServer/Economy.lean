import FishServer.Ledger
import FishServer.RoomStock
import FishServer.SessionRun

namespace FishServer

open LinkedList Transition

/-! What shots and hits do to the coins: nothing is paid for twice, and nobody but who fired is paid. -/

-- who fired the bullet `b` of the room `r`: since `s₀`, or before it
def Server.Fired (s₀ : Server) (shots : List Shot) (r b : ℕ) (uid : ℤ) : Prop :=
  (∃ x ∈ shots, x.room = r ∧ x.bullet = b ∧ x.uid = uid) ∨
    ∃ o v, (s₀.rooms.room r).bullets = some o ∧ o.list.value b = some v ∧ v.uid = uid

structure Server.Owned (s₀ s : Server) (shots : List Shot) : Prop where
  uid : ∀ r o b v, r < s.rooms.maxRoom → (s.rooms.room r).bullets = some o → o.list.value b = some v →
    s₀.Fired shots r b v.uid
  below : ∀ r b uid, r < s.rooms.maxRoom → s₀.Fired shots r b uid →
    ∃ o, (s.rooms.room r).bullets = some o ∧ b < o.list.fresh
  one : ∀ r b uid uid', r < s.rooms.maxRoom → s₀.Fired shots r b uid → s₀.Fired shots r b uid' → uid = uid'

variable {s₀ s t : Server} {shots : List Shot} {awards : List Award}

theorem owned_start (h : s₀.rooms.Stocked []) : s₀.Owned s₀ [] := by
  have hfired : ∀ r b uid, s₀.Fired [] r b uid →
      ∃ o v, (s₀.rooms.room r).bullets = some o ∧ o.list.value b = some v ∧ v.uid = uid := by
    rintro r b uid (⟨x, hx, _⟩ | hold)
    · cases hx
    · exact hold
  refine ⟨?_, ?_, ?_⟩
  · exact fun r o b v _ ho hv => .inr ⟨o, v, ho, hv, rfl⟩
  · intro r b uid hr hf
    obtain ⟨o, v, ho, hv, _⟩ := hfired r b uid hf
    obtain ⟨l, hl⟩ := (h.bullets r o hr ho).sound
    exact ⟨o, ho, hl.holds.fresh _ (hl.holds.mem_of_value hv)⟩
  · intro r b uid uid' _ hf hf'
    obtain ⟨o, v, ho, hv, rfl⟩ := hfired r b uid hf
    obtain ⟨o', v', ho', hv', rfl⟩ := hfired r b uid' hf'
    rw [ho] at ho'
    cases ho'
    rw [hv] at hv'
    cases hv'
    rfl

theorem Server.Owned.congr (h : s₀.Owned s shots) (hmax : t.rooms.maxRoom = s.rooms.maxRoom)
    (hb : ∀ r, (t.rooms.room r).bullets = (s.rooms.room r).bullets) : s₀.Owned t shots := by
  refine ⟨?_, ?_, ?_⟩
  · intro r o b v hr ho hv
    exact h.uid r o b v (hmax ▸ hr) ((hb r).symm.trans ho) hv
  · intro r b uid hr hf
    obtain ⟨o, ho, hlt⟩ := h.below r b uid (hmax ▸ hr) hf
    exact ⟨o, (hb r).trans ho, hlt⟩
  · exact fun r b uid uid' hr => h.one r b uid uid' (hmax ▸ hr)

theorem Server.Owned.setBullets (h : s₀.Owned s shots) {r : ℕ} {o o' : Bullets}
    (ho : (s.rooms.room r).bullets = some o) (hfresh : o'.list.fresh = o.list.fresh)
    (hval : ∀ b v', o'.list.value b = some v' → ∃ v, o.list.value b = some v ∧ v.uid = v'.uid) :
    s₀.Owned (s.setBullets r o') shots := by
  have hself : ((s.setBullets r o').rooms.room r).bullets = some o' := by
    simp only [Server.setBullets, Rooms.setRoom, Function.update_self]
  have hother : ∀ q, q ≠ r → (s.setBullets r o').rooms.room q = s.rooms.room q :=
    fun q hq => Function.update_of_ne hq _ _
  refine ⟨?_, ?_, fun q b uid uid' hq => h.one q b uid uid' hq⟩
  · intro q o'' b v' hq ho'' hv'
    by_cases he : q = r
    · subst he
      rw [hself] at ho''
      cases ho''
      obtain ⟨v, hv, hu⟩ := hval b v' hv'
      rw [← hu]
      exact h.uid q o b v hq ho hv
    · rw [hother q he] at ho''
      exact h.uid q o'' b v' hq ho'' hv'
  · intro q b uid hq hf
    obtain ⟨o'', ho'', hlt⟩ := h.below q b uid hq hf
    by_cases he : q = r
    · subst he
      rw [ho] at ho''
      cases ho''
      exact ⟨o', hself, hfresh ▸ hlt⟩
    · exact ⟨o'', by rw [hother q he, ho''], hlt⟩

theorem Server.Owned.setFishs (h : s₀.Owned s shots) (r : ℕ) (o : Fishs) : s₀.Owned (s.setFishs r o) shots := by
  apply h.congr
  · rfl
  · intro q
    by_cases he : q = r
    · rw [he]
      simp only [Server.setFishs, Rooms.setRoom, Function.update_self]
    · simp only [Server.setFishs, Rooms.setRoom, Function.update_of_ne he]

theorem fired_cons (x : Shot) (r b : ℕ) (uid : ℤ) : s₀.Fired (x :: shots) r b uid ↔
    (x.room = r ∧ x.bullet = b ∧ x.uid = uid) ∨ s₀.Fired shots r b uid := by
  unfold Server.Fired
  simp only [List.mem_cons, exists_eq_or_imp, or_assoc]

theorem Server.Owned.shoot (h : s₀.Owned s shots) (hs : s.rooms.Stocked awards) {i : Slot} {a b : ℕ}
    {o o' : Bullets} {x y : ℤ} {angle : CStr} {time : ℚ} (now : ℤ)
    (hr : (s.slot i).room - 1 < s.rooms.maxRoom)
    (ho : (s.rooms.room ((s.slot i).room - 1)).bullets = some o)
    (hc : Bullets.create o (s.slot i).uid x y angle time = some (o', b)) :
    s₀.Owned (s.fire i a o' b now) (⟨a, (s.slot i).uid, (s.slot i).room - 1, b⟩ :: shots) := by
  obtain ⟨l, hl⟩ := (hs.bullets _ _ hr ho).sound
  obtain ⟨_, rfl, id, hlist⟩ := hl.create (fun _ => rfl) hc
  have hself : ((s.fire i a o' o.list.fresh now).rooms.room ((s.slot i).room - 1)).bullets = some o' := by
    simp only [Server.fire, Server.setBullets, Server.setUser, Server.setSlot, Rooms.setRoom,
      Function.update_self]
  have hother : ∀ q, q ≠ (s.slot i).room - 1 →
      (s.fire i a o' o.list.fresh now).rooms.room q = s.rooms.room q :=
    fun q hq => Function.update_of_ne hq _ _
  have hfresh : o'.list.fresh = o.list.fresh + 1 := by rw [hlist, DList.fresh_append]
  refine ⟨?_, ?_, ?_⟩
  · intro q o'' b v hq ho'' hv
    rw [fired_cons]
    by_cases he : q = (s.slot i).room - 1
    · subst he
      rw [hself] at ho''
      cases ho''
      rw [hlist] at hv
      by_cases hb : b = o.list.fresh
      · rw [hb, DList.value_append_self] at hv
        cases hv
        exact .inl ⟨rfl, hb.symm, rfl⟩
      · rw [DList.value_append_of_ne _ _ hb] at hv
        exact .inr (h.uid _ o b v hq ho hv)
    · rw [hother q he] at ho''
      exact .inr (h.uid q o'' b v hq ho'' hv)
  · intro q b uid hq hf
    rcases (fired_cons _ q b uid).mp hf with ⟨rfl, rfl, _⟩ | hf
    · exact ⟨o', hself, hfresh ▸ Nat.lt_succ_self _⟩
    · obtain ⟨o'', ho'', hlt⟩ := h.below q b uid hq hf
      by_cases he : q = (s.slot i).room - 1
      · subst he
        rw [ho] at ho''
        cases ho''
        exact ⟨o', hself, hfresh ▸ Nat.lt_succ_of_lt hlt⟩
      · exact ⟨o'', by rw [hother q he, ho''], hlt⟩
  · -- the new bullet has been fired by nobody before
    have hnew : ∀ uid, ¬ s₀.Fired shots ((s.slot i).room - 1) o.list.fresh uid := by
      intro uid hf
      obtain ⟨o'', ho'', hlt⟩ := h.below _ _ uid hr hf
      rw [ho] at ho''
      cases ho''
      exact lt_irrefl _ hlt
    intro q b uid uid' hq hf hf'
    rcases (fired_cons _ q b uid).mp hf with ⟨rfl, rfl, hu⟩ | hf
    · rcases (fired_cons _ _ _ uid').mp hf' with ⟨_, _, hu'⟩ | hf'
      · exact hu.symm.trans hu'
      · exact absurd hf' (hnew uid')
    · rcases (fired_cons _ q b uid').mp hf' with ⟨rfl, rfl, _⟩ | hf'
      · exact absurd hf (hnew uid)
      · exact h.one q b uid uid' hq hf hf'

structure Server.Accounted (s₀ s : Server) (l : Ledger) : Prop where
  shots : s.trace.shots = l.shots ++ s₀.trace.shots
  awards : s.trace.awards = l.awards ++ s₀.trace.awards
  session : s.session = s₀.session
  stocked : s.rooms.Stocked l.awards
  owned : s₀.Owned s l.shots
  bullets : (l.awards.map (fun w => (w.room, w.bullet))).Nodup
  fishs : (l.awards.map (fun w => (w.room, w.fish))).Nodup
  fired : ∀ w ∈ l.awards, w.room < s.rooms.maxRoom ∧ s₀.Fired l.shots w.room w.bullet w.uid
  balanced : l.Balanced s₀ s

theorem accounted_start (h : s₀.rooms.Stocked []) : s₀.Accounted s₀ ⟨[], []⟩ where
  shots := rfl
  awards := rfl
  session := rfl
  stocked := h
  owned := owned_start h
  bullets := List.nodup_nil
  fishs := List.nodup_nil
  fired := fun _ hw => nomatch hw
  balanced := Ledger.balanced_nil s₀

variable {l : Ledger}

theorem Server.Accounted.maxRoom (h : s₀.Accounted s l) : s.rooms.maxRoom = s₀.rooms.maxRoom :=
  congrArg Session.maxRoom h.session

theorem Server.Accounted.room_lt (h : s₀.Accounted s l) (hseat : ∀ i, (s₀.slot i).room ≤ s₀.rooms.maxRoom)
    {i : Slot} (hi : 0 < (s.slot i).room) : (s.slot i).room - 1 < s.rooms.maxRoom := by
  have hroom : (s.slot i).room = (s₀.slot i).room := congrArg (fun u => (u.slot i).room) h.session
  have hs := hseat i
  rw [h.maxRoom]
  omega

theorem Server.Accounted.congr (h : s₀.Accounted s l) (ht : t.trace = s.trace) (hu : t.users = s.users)
    (hs : t.session = s.session) (hst : t.rooms.Stocked l.awards) (ho : s₀.Owned t l.shots) :
    s₀.Accounted t l where
  shots := by rw [ht, h.shots]
  awards := by rw [ht, h.awards]
  session := hs.trans h.session
  stocked := hst
  owned := ho
  bullets := h.bullets
  fishs := h.fishs
  fired := by
    have hm : t.rooms.maxRoom = s.rooms.maxRoom := congrArg Session.maxRoom hs
    rw [hm]
    exact h.fired
  balanced := h.balanced.congr hu

theorem Server.Accounted.quiet (h : s₀.Accounted s l) (hp : Play s t) (ht : t.trace = s.trace)
    (hu : t.users = s.users) (ho : s₀.Owned t l.shots) : s₀.Accounted t l := by
  apply h.congr ht hu (play_session hp) _ ho
  obtain ⟨new, hn, hs⟩ := h.stocked.play hp
  rw [ht] at hn
  rw [List.self_eq_append_left.mp hn] at hs
  exact hs

theorem Server.Accounted.shoot (h : s₀.Accounted s l) {x : Shot} (hp : Play s t)
    (hs : t.trace.shots = x :: s.trace.shots) (ha : t.trace.awards = s.trace.awards)
    (ho : s₀.Owned t (x :: l.shots)) (hb : (l.shoot x).Balanced s₀ t) : s₀.Accounted t (l.shoot x) where
  shots := by rw [hs, h.shots]; rfl
  awards := by rw [ha, h.awards]; rfl
  session := (play_session hp).trans h.session
  stocked := by
    obtain ⟨new, hn, hst⟩ := h.stocked.play hp
    rw [ha] at hn
    rw [List.self_eq_append_left.mp hn] at hst
    exact hst
  owned := ho
  bullets := h.bullets
  fishs := h.fishs
  fired := by
    intro w hw
    have hm : t.rooms.maxRoom = s.rooms.maxRoom := congrArg Session.maxRoom (play_session hp)
    obtain ⟨hr, hf⟩ := h.fired w hw
    exact ⟨hm ▸ hr, (fired_cons x _ _ _).mpr (.inr hf)⟩
  balanced := hb

theorem Server.Accounted.pay (h : s₀.Accounted s l) {w : Award} (hp : Play s t)
    (hs : t.trace.shots = s.trace.shots) (ha : t.trace.awards = w :: s.trace.awards)
    (ho : s₀.Owned t l.shots) (hbullet : ¬ PaidBullet l.awards w.room w.bullet)
    (hfish : ¬ PaidFish l.awards w.room w.fish) (hr : w.room < s.rooms.maxRoom)
    (hf : s₀.Fired l.shots w.room w.bullet w.uid) (hb : (l.pay w).Balanced s₀ t) :
    s₀.Accounted t (l.pay w) where
  shots := by rw [hs, h.shots]; rfl
  awards := by rw [ha, h.awards]; rfl
  session := (play_session hp).trans h.session
  stocked := by
    obtain ⟨new, hn, hst⟩ := h.stocked.play hp
    rw [ha, ← List.singleton_append] at hn
    rw [← List.append_cancel_right hn] at hst
    exact hst
  owned := ho
  bullets := by
    apply List.nodup_cons.mpr ⟨_, h.bullets⟩
    intro hm
    obtain ⟨w', hw', he⟩ := List.mem_map.mp hm
    exact hbullet ⟨w', hw', (Prod.mk.inj he).1, (Prod.mk.inj he).2⟩
  fishs := by
    apply List.nodup_cons.mpr ⟨_, h.fishs⟩
    intro hm
    obtain ⟨w', hw', he⟩ := List.mem_map.mp hm
    exact hfish ⟨w', hw', (Prod.mk.inj he).1, (Prod.mk.inj he).2⟩
  fired := by
    have hm : t.rooms.maxRoom = s.rooms.maxRoom := congrArg Session.maxRoom (play_session hp)
    intro w' hw'
    rw [hm]
    rcases List.mem_cons.mp hw' with rfl | hw'
    · exact ⟨hr, hf⟩
    · exact h.fired w' hw'
  balanced := hb

theorem modify_owner (d : DList Bullet) (f : Bullet → Bullet) (hf : ∀ v, (f v).uid = v.uid) (p b : ℕ)
    (v' : Bullet) (h : (d.modify f p).value b = some v') : ∃ v, d.value b = some v ∧ v.uid = v'.uid := by
  by_cases hb : b = p
  · rw [hb, DList.value_modify_self] at h
    obtain ⟨v, hv, rfl⟩ := Option.map_eq_some_iff.mp h
    exact ⟨v, hb ▸ hv, (hf v).symm⟩
  · rw [DList.value_modify_of_ne _ _ hb] at h
    exact ⟨v', h, rfl⟩

theorem Server.Owned.freeBullet (h : s₀.Owned s shots) {r b : ℕ} {o : Bullets}
    (ho : (s.rooms.room r).bullets = some o) : s₀.Owned (s.freeBullet r b o) shots := by
  apply h.setBullets ho
  · rfl
  · exact modify_owner o.list Bullet.free (fun _ => rfl) b

theorem Server.Owned.visit (h : s₀.Owned s shots) (hs : s.rooms.Stocked awards) {r b : ℕ} {o o' : Bullets}
    {next : Option ℕ} {now : ℚ} (hr : r < s.rooms.maxRoom) (ho : (s.rooms.room r).bullets = some o)
    (hv : Thread.bulletVisit o now b = some (o', next)) : s₀.Owned (s.setBullets r o') shots := by
  obtain ⟨l, hl⟩ := (hs.bullets r o hr ho).sound
  rcases hl.visit hv with rfl | ⟨_, rfl, _⟩
  · exact h.setBullets ho rfl (fun _ v hv => ⟨v, hv, rfl⟩)
  · apply h.setBullets ho
    · exact DList.fresh_remove _ _
    · intro q v hq
      by_cases he : q = b
      · rw [he, DList.value_remove_self] at hq
        cases hq
      · rw [DList.value_remove_of_ne _ he] at hq
        exact ⟨v, hq, rfl⟩

theorem Server.Accounted.play (h : s₀.Accounted s l) (hseat : ∀ i, (s₀.slot i).room ≤ s₀.rooms.maxRoom)
    (hp : Play s t) (hcoins : (t.since s₀).coinsFit s₀ = true) (hkills : (t.since s₀).killsFit s₀ = true) :
    ∃ l', s₀.Accounted t l' := by
  have hplay := hp
  cases hp with
  | idle => exact ⟨l, h⟩
  | @shot i a b bullets bullets' x y angle time now hi hu hc hb hnew =>
    have hl : (s.fire i a bullets' b now).since s₀ =
        l.shoot ⟨a, (s.slot i).uid, (s.slot i).room - 1, b⟩ := by
      apply since_eq
      · exact congrArg (List.cons _) h.shots
      · exact h.awards
    rw [hl] at hcoins
    refine ⟨_, h.shoot hplay rfl rfl ?_ ?_⟩
    · exact h.owned.shoot h.stocked now (h.room_lt hseat hi) hb hnew
    · exact h.balanced.shoot rfl (l.coinsFit_shoot s₀ _ hcoins)
  | @missed i b bullets id hi hb hfound => exact ⟨l, h.quiet hplay rfl rfl (h.owned.freeBullet hb)⟩
  | @award i a b f bullets fishs fishs' id id' fish hi hu hb hfound hf hget hfish =>
    have hr := h.room_lt hseat hi
    have hl : ((s.pay i a b fishs' f fish.fish).freeBullet ((s.slot i).room - 1) b bullets).since s₀ =
        l.pay ⟨a, (s.slot i).uid, (s.slot i).room - 1, b, f, fish.fish.coin, fish.fish.no⟩ := by
      apply since_eq
      · exact h.shots
      · exact congrArg (List.cons _) h.awards
    rw [hl] at hcoins hkills
    have hbs := h.stocked.bullets _ _ hr hb
    have hfs := h.stocked.fishs _ _ hr hf
    obtain ⟨_, hlb⟩ := hbs.sound
    obtain ⟨_, hlf⟩ := hfs.sound
    obtain ⟨v, hv, _, huid, _, hdel⟩ := getBullet_found hlb hfound
    obtain ⟨w, hw, _, _, hdelf, _⟩ := getFish_found hlf hget
    have hown : s₀.Owned (s.pay i a b fishs' f fish.fish) l.shots :=
      (h.owned.setFishs ((s.slot i).room - 1)
        { fishs' with list := (fishs'.list.modify Fish.hit f).modify Fish.free f }).congr rfl (fun _ => rfl)
    refine ⟨_, h.pay hplay rfl rfl ?_ ?_ ?_ hr ?_ ?_⟩
    · apply hown.freeBullet
      simp only [Server.pay, Server.setFishs, Server.setUser, Rooms.setRoom, Function.update_self]
      exact hb
    · exact hbs.not_paid hv hdel
    · exact hfs.not_paid hw hdelf
    · rw [← huid]
      exact h.owned.uid _ _ _ _ hr hb hv
    · exact h.balanced.pay rfl (l.coinsFit_pay s₀ _ hcoins) (l.killsFit_pay s₀ _ hkills)
  | newFish hr hf hnew => exact ⟨l, h.quiet hplay rfl rfl (h.owned.setFishs _ _)⟩
  | bulletVisit hr hb hv => exact ⟨l, h.quiet hplay rfl rfl (h.owned.visit h.stocked hr hb hv)⟩
  | fishVisit hr hf hv => exact ⟨l, h.quiet hplay rfl rfl (h.owned.setFishs _ _)⟩

theorem Server.Accounted.played (h : s₀.Accounted s l)
    (hseat : ∀ i, (s₀.slot i).room ≤ s₀.rooms.maxRoom) (hp : Played s t)
    (hcoins : (t.since s₀).coinsFit s₀ = true) (hkills : (t.since s₀).killsFit s₀ = true) :
    ∃ l', s₀.Accounted t l' := by
  obtain ⟨u, hu, sent, rfl⟩ := hp
  obtain ⟨l', hl⟩ := h.play hseat hu hcoins hkills
  exact ⟨l', hl.congr rfl rfl rfl hl.stocked (hl.owned.congr rfl (fun _ => rfl))⟩

structure Server.Conserves (s₀ s : Server) : Prop where
  coin : ∀ a, (s.users a).coin =
    (s₀.users a).coin - (s.since s₀).shotsOf a + (s.since s₀).won a
  kills : ∀ a no, killSum no (s.users a).killfish =
    killSum no (s₀.users a).killfish + (s.since s₀).caught a no
  bullets : ((s.since s₀).awards.map (fun w => (w.room, w.bullet))).Nodup
  fishs : ((s.since s₀).awards.map (fun w => (w.room, w.fish))).Nodup
  fired : ∀ w ∈ (s.since s₀).awards, ∀ uid,
    s₀.Fired (s.since s₀).shots w.room w.bullet uid ↔ uid = w.uid
  unlockedBullets : ∀ r o b v, r < s.rooms.maxRoom → (s.rooms.room r).bullets = some o →
    o.list.value b = some v → v.lock = false
  unlockedFishs : ∀ r o f v, r < s.rooms.maxRoom → (s.rooms.room r).fishs = some o →
    o.list.value f = some v → v.lock = false

theorem Server.Accounted.conserves (h : s₀.Accounted s l) : s₀.Conserves s := by
  have hl : s.since s₀ = l := since_eq h.shots h.awards
  refine ⟨?_, ?_, ?_, ?_, ?_, ?_, ?_⟩
  · rw [hl]
    exact h.balanced.coin
  · rw [hl]
    exact h.balanced.sum
  · rw [hl]
    exact h.bullets
  · rw [hl]
    exact h.fishs
  · rw [hl]
    intro w hw uid
    obtain ⟨hr, hf⟩ := h.fired w hw
    constructor
    · exact fun hf' => h.owned.one _ _ _ _ hr hf' hf
    · rintro rfl
      exact hf
  · exact fun r o b v hr ho hv => (h.stocked.bullets r o hr ho).unlocked b v hv
  · exact fun r o f v hr ho hv => (h.stocked.fishs r o hr ho).unlocked f v hv

def Server.playsCoins (signKey : CStr → ℤ) (s₀ s : Server) (op : Op) : Bool :=
  op.isPlay && (serverStep signKey s op).all (fun t => (t.since s₀).coinsFit s₀)

def Server.plays (signKey : CStr → ℤ) (s₀ s : Server) (op : Op) : Bool :=
  s₀.playsCoins signKey s op && (serverStep signKey s op).all (fun t => (t.since s₀).killsFit s₀)

theorem economy_conserved (signKey : CStr → ℤ) (maxRoom : ℕ) (outside : ℕ → Room) (fish : List SettingFish)
    (users : ℕ → User) (s₀ s : Server)
    (h₀ : Reach (serverStep signKey) (fun _ _ => True) (Server.start maxRoom outside fish users) s₀)
    (hseat : ∀ i, (s₀.slot i).room ≤ s₀.rooms.maxRoom)
    (h : Reach (serverStep signKey) (fun s op => s₀.plays signKey s op = true) s₀ s) : s₀.Conserves s := by
  have ha : ∃ l, s₀.Accounted s l := by
    apply h.invariant (P := fun s => ∃ l, s₀.Accounted s l)
    · exact ⟨_, accounted_start (stocked_reachable h₀)⟩
    · rintro s op t ⟨l, hl⟩ hok ht
      unfold Server.plays Server.playsCoins at hok
      rw [ht, Option.all_some, Option.all_some, Bool.and_eq_true, Bool.and_eq_true] at hok
      exact hl.played hseat (played_of_step op hok.1.1 ht) hok.1.2 hok.2
  obtain ⟨l, hl⟩ := ha
  exact hl.conserves

def shotMessage (i : Slot) : Op :=
  sampleMessage i [("op".toList, "to shot".toList), ("angle".toList, ['0'])]

def hitMessage (i : Slot) (bullet fish : CStr) : Op :=
  sampleMessage i [("op".toList, "hit fish".toList), ("bullet_id".toList, bullet),
    ("fish_id".toList, fish), ("fag".toList, ['0'])]

theorem economy_conserved_run : ∃ s₀ s : Server, ((s.users 0).coin, (s.since s₀).awards.length) = (4, 1) ∧
    s₀.Conserves s := by
  have hrun : ((runIf (serverStep sampleKey) (fun _ _ => true) sampleServer
      (enter 0 5 ['a'] ++ [inRoom 0])).bind (fun s₀ =>
        (runIf (serverStep sampleKey) (s₀.plays sampleKey) s₀
          [shotMessage 0, shotMessage 0, hitMessage 0 ['1'] ['1'], .bulletVisit 0 0 0, .fishVisit 0 0]).map
            (fun s => (decide (∀ i, (s₀.slot i).room ≤ s₀.rooms.maxRoom),
              (s.users 0).coin, (s.since s₀).awards.length)))) = some (true, 4, 1) := by
    decide +kernel
  obtain ⟨s₀, h₀, h⟩ := Option.bind_eq_some_iff.mp hrun
  obtain ⟨s, h, hh⟩ := Option.map_eq_some_iff.mp h
  obtain ⟨hseat, hh⟩ := Prod.mk.inj hh
  exact ⟨s₀, s, hh, economy_conserved sampleKey 1 _ _ _ s₀ s
    ((Reach.of_runIf h₀).mono (fun _ _ _ => trivial)) (of_decide_eq_true hseat) (Reach.of_runIf h)⟩

def veteran : User := { sampleUser with killfish := [⟨1, 1, maxInt, false⟩] }

theorem kills_wrap : ∃ s₀ s : Server,
    runIf (serverStep sampleKey) (fun _ _ => true) sampleServer
      [.connect 5 0 0, .handshake 0, verifyMessage 0 ['a'] ['1'], .verify 0 ['a'] veteran, inRoom 0] =
        some s₀ ∧
    runIf (serverStep sampleKey) (s₀.playsCoins sampleKey) s₀ [shotMessage 0, hitMessage 0 ['1'] ['1']] =
      some s ∧ ¬ s₀.Conserves s := by
  have hrun : ((runIf (serverStep sampleKey) (fun _ _ => true) sampleServer
      [.connect 5 0 0, .handshake 0, verifyMessage 0 ['a'] ['1'], .verify 0 ['a'] veteran,
        inRoom 0]).bind (fun s₀ =>
          (runIf (serverStep sampleKey) (s₀.playsCoins sampleKey) s₀
            [shotMessage 0, hitMessage 0 ['1'] ['1']]).map (fun s =>
              (killSum 1 (s₀.users 0).killfish, killSum 1 (s.users 0).killfish, (s.since s₀).caught 0 1)))) =
                some (maxInt, -2147483648, 1) := by
    decide +kernel
  obtain ⟨s₀, h₀, h⟩ := Option.bind_eq_some_iff.mp hrun
  obtain ⟨s, h, hh⟩ := Option.map_eq_some_iff.mp h
  simp only [Prod.mk.injEq] at hh
  refine ⟨s₀, s, h₀, h, ?_⟩
  intro hc
  have hk := hc.kills 0 1
  rw [hh.1, hh.2.1, hh.2.2] at hk
  revert hk
  decide

end FishServer
