import FishServer.ServerRun

namespace FishServer

open LinkedList

/-!
What shots, hits and the sweeps do to the server, apart from the messages that they send.
-/

inductive Play (s : Server) : Server → Prop
  | idle : Play s s
  | shot {i : Slot} {a b : ℕ} {bullets bullets' : Bullets} {x y : ℤ} {angle : CStr} {time : ℚ} (now : ℤ) :
      0 < (s.slot i).room → (s.slot i).user = some a → 0 < (s.users a).coin →
        (s.rooms.room ((s.slot i).room - 1)).bullets = some bullets →
          Bullets.create bullets (s.slot i).uid x y angle time = some (bullets', b) →
            Play s (s.fire i a bullets' b now)
  | missed {i : Slot} {b : ℕ} {bullets : Bullets} {id : ℤ} : 0 < (s.slot i).room →
      (s.rooms.room ((s.slot i).room - 1)).bullets = some bullets →
        bullets.getBullet id (s.slot i).uid = some (some b) →
          Play s (s.freeBullet ((s.slot i).room - 1) b bullets)
  | award {i : Slot} {a b f : ℕ} {bullets : Bullets} {fishs fishs' : Fishs} {id id' : ℤ} {fish : Fish} :
      0 < (s.slot i).room → (s.slot i).user = some a →
        (s.rooms.room ((s.slot i).room - 1)).bullets = some bullets →
          bullets.getBullet id (s.slot i).uid = some (some b) →
            (s.rooms.room ((s.slot i).room - 1)).fishs = some fishs →
              fishs.getFish id' = some (fishs', some f) → fishs'.list.value f = some fish →
                Play s ((s.pay i a b fishs' f fish.fish).freeBullet ((s.slot i).room - 1) b bullets)
  | newFish {r : ℕ} {fishs fishs' : Fishs} {f : Option ℕ} {rand : ℕ → ℕ} {time : ℚ} : r < s.rooms.maxRoom →
      (s.rooms.room r).fishs = some fishs → Fishs.create fishs s.fish rand time = some (fishs', f) →
        Play s (s.setFishs r fishs')
  | bulletVisit {r b : ℕ} {bullets bullets' : Bullets} {next : Option ℕ} {now : ℚ} : r < s.rooms.maxRoom →
      (s.rooms.room r).bullets = some bullets → Thread.bulletVisit bullets now b = some (bullets', next) →
        Play s (s.setBullets r bullets')
  | fishVisit {r f : ℕ} {fishs fishs' : Fishs} {next : Option ℕ} : r < s.rooms.maxRoom →
      (s.rooms.room r).fishs = some fishs → Thread.fishVisit fishs f = some (fishs', next) →
        Play s (s.setFishs r fishs')

def Played (s t : Server) : Prop := ∃ u, Play s u ∧ ∃ sent, t = { u with sent }

inductive PlayOf (s : Server) (i : Slot) : Server → Prop
  | idle : PlayOf s i s
  | shot {a b : ℕ} {bullets bullets' : Bullets} {x y : ℤ} {angle : CStr} {time : ℚ} (now : ℤ) :
      0 < (s.slot i).room → (s.slot i).user = some a → 0 < (s.users a).coin →
        (s.rooms.room ((s.slot i).room - 1)).bullets = some bullets →
          Bullets.create bullets (s.slot i).uid x y angle time = some (bullets', b) →
            PlayOf s i (s.fire i a bullets' b now)
  | missed {b : ℕ} {bullets : Bullets} {id : ℤ} : 0 < (s.slot i).room →
      (s.rooms.room ((s.slot i).room - 1)).bullets = some bullets →
        bullets.getBullet id (s.slot i).uid = some (some b) →
          PlayOf s i (s.freeBullet ((s.slot i).room - 1) b bullets)
  | award {a b f : ℕ} {bullets : Bullets} {fishs fishs' : Fishs} {id id' : ℤ} {fish : Fish} :
      0 < (s.slot i).room → (s.slot i).user = some a →
        (s.rooms.room ((s.slot i).room - 1)).bullets = some bullets →
          bullets.getBullet id (s.slot i).uid = some (some b) →
            (s.rooms.room ((s.slot i).room - 1)).fishs = some fishs →
              fishs.getFish id' = some (fishs', some f) → fishs'.list.value f = some fish →
                PlayOf s i ((s.pay i a b fishs' f fish.fish).freeBullet ((s.slot i).room - 1) b bullets)

def PlayedBy (s : Server) (i : Slot) (t : Server) : Prop := ∃ u, PlayOf s i u ∧ ∃ sent, t = { u with sent }

variable {s t : Server} {i : Slot} {json : JsonValue} {now : ℤ} {time : ℚ}

theorem Play.played (h : Play s t) : Played s t := ⟨t, h, t.sent, rfl⟩

theorem PlayOf.play (h : PlayOf s i t) : Play s t := by
  cases h with
  | idle => exact .idle
  | shot now hr ha hc hb hnew => exact .shot now hr ha hc hb hnew
  | missed hr hb hfound => exact .missed hr hb hfound
  | award hr ha hb hfound hf hget hfish => exact .award hr ha hb hfound hf hget hfish

theorem PlayedBy.played (h : PlayedBy s i t) : Played s t := by
  obtain ⟨u, hu, ht⟩ := h
  exact ⟨u, hu.play, ht⟩

theorem send_playedBy (s : Server) (i : Slot) (p : Player) (r : Reply) : PlayedBy s i (s.send p r) :=
  ⟨s, .idle, _, rfl⟩

theorem send_played (s : Server) (p : Player) (r : Reply) : Played s (s.send p r) := ⟨s, .idle, _, rfl⟩

theorem setFishs_self (s : Server) (r : ℕ) {fishs : Fishs} (h : (s.rooms.room r).fishs = some fishs) :
    s.setFishs r fishs = s := by
  have hroom : { s.rooms.room r with fishs := some fishs } = s.rooms.room r := by
    rw [← h]
  unfold Server.setFishs Rooms.setRoom
  rw [hroom, Function.update_eq_self]

theorem getFish_none {fishs fishs' : Fishs} {id : ℤ} (h : fishs.getFish id = some (fishs', none)) :
    fishs' = fishs := by
  unfold Fishs.getFish at h
  split_ifs at h
  split at h
  · exact (Prod.mk.inj (Option.some.inj h)).1.symm
  · split_ifs at h
    · cases h
    · exact (Prod.mk.inj (Option.some.inj h)).1.symm

theorem toShot_playedBy (hr : 0 < (s.slot i).room) (h : Entry.toShot s i json now time = some t) :
    PlayedBy s i t := by
  unfold Entry.toShot at h
  split at h
  · cases h
    apply send_playedBy
  · next a ha =>
    split_ifs at h with hc
    · cases h
      apply send_playedBy
    · unfold Entry.shoot at h
      simp only [Option.bind_eq_bind, Option.bind_eq_some_iff] at h
      obtain ⟨angle, _, bullets, hb, ⟨bullets', b⟩, hnew, bullet, _, h⟩ := h
      cases h
      exact ⟨_, .shot now hr ha (not_le.mp hc) hb hnew, _, rfl⟩

theorem toShot_played (hr : 0 < (s.slot i).room) (h : Entry.toShot s i json now time = some t) : Played s t :=
  (toShot_playedBy hr h).played

theorem hitFish_playedBy (hr : 0 < (s.slot i).room) (h : Entry.hitFish s i json = some t) : PlayedBy s i t := by
  unfold Entry.hitFish at h
  simp only [Option.bind_eq_bind, Option.bind_eq_some_iff] at h
  obtain ⟨bullets, hb, found, hfound, h⟩ := h
  split at h
  · next a b ha =>
    simp only [Option.bind_eq_some_iff] at h
    obtain ⟨fishs, hf, ⟨fishs', f⟩, hget, h⟩ := h
    cases f with
    | none =>
      cases h
      rw [getFish_none hget, setFishs_self s _ hf]
      exact ⟨_, .missed hr hb hfound, _, rfl⟩
    | some f =>
      obtain ⟨u, hu, rfl⟩ := Option.map_eq_some_iff.mp h
      unfold Entry.award at hu
      simp only [Option.bind_eq_bind, Option.bind_eq_some_iff] at hu
      obtain ⟨fish, hfish, fag, _, hu⟩ := hu
      cases hu
      exact ⟨_, .award hr ha hb hfound hf hget hfish, _, rfl⟩
  · cases h
    apply send_playedBy

theorem hitFish_played (hr : 0 < (s.slot i).room) (h : Entry.hitFish s i json = some t) : Played s t :=
  (hitFish_playedBy hr h).played

theorem fish_played {r : ℕ} {rand : ℕ → ℕ} (hr : r < s.rooms.maxRoom)
    (h : Thread.fish s r time rand = some t) : Played s t := by
  unfold Thread.fish at h
  simp only [Option.bind_eq_bind, Option.bind_eq_some_iff] at h
  obtain ⟨fishs, hf, h⟩ := h
  split_ifs at h
  simp only [Option.bind_eq_some_iff] at h
  obtain ⟨⟨fishs', f⟩, hnew, h⟩ := h
  split at h
  · cases h
    exact ⟨_, .newFish hr hf hnew, _, rfl⟩
  · cases h
    exact (Play.newFish hr hf hnew).played

def Op.isPlay : Op → Bool
  | .message _ json _ _ _ =>
    decide (json.value "op".toList = some "to shot".toList) ||
      decide (json.value "op".toList = some "hit fish".toList)
  | .fish _ _ _ => true
  | .bulletVisit _ _ _ => true
  | .fishVisit _ _ => true
  | _ => false

theorem dispatch_played {rand : ℕ → ℕ}
    (hop : json.value "op".toList = some "to shot".toList ∨ json.value "op".toList = some "hit fish".toList)
    (h : Entry.dispatch s i json now time rand = some t) : Played s t := by
  unfold Entry.dispatch at h
  by_cases hu : (s.slot i).user = none
  · rcases hop with hop | hop
    · simp only [hop] at h
      rw [if_neg (by decide), if_pos hu] at h
      cases h
      exact Play.idle.played
    · simp only [hop] at h
      rw [if_neg (by decide), if_pos hu] at h
      cases h
      exact Play.idle.played
  rcases hop with hop | hop
  · simp only [hop] at h
    rw [if_neg (by decide), if_neg hu, if_neg (by decide), if_neg (by decide), if_pos trivial] at h
    split_ifs at h with hr
    · exact toShot_played hr h
    · cases h
      exact Play.idle.played
  · simp only [hop] at h
    rw [if_neg (by decide), if_neg hu, if_neg (by decide), if_neg (by decide), if_neg (by decide),
      if_pos trivial] at h
    split_ifs at h with hr
    · exact hitFish_played hr h
    · cases h
      exact Play.idle.played

theorem played_of_step {signKey : CStr → ℤ} (op : Op) (hop : op.isPlay = true)
    (h : serverStep signKey s op = some t) : Played s t := by
  unfold serverStep at h
  split_ifs at h
  cases op with
  | message i json now time rand =>
    simp only at h
    split_ifs at h
    rw [Op.isPlay, Bool.or_eq_true, decide_eq_true_eq, decide_eq_true_eq] at hop
    exact dispatch_played hop h
  | fish r time rand =>
    simp only at h
    split_ifs at h with hr
    exact fish_played hr h
  | bulletVisit r b now =>
    simp only at h
    split_ifs at h with hr
    simp only [Option.bind_eq_bind, Option.bind_eq_some_iff] at h
    obtain ⟨bullets, hb, ⟨bullets', _⟩, hv, h⟩ := h
    cases h
    exact (Play.bulletVisit hr hb hv).played
  | fishVisit r f =>
    simp only at h
    split_ifs at h with hr
    simp only [Option.bind_eq_bind, Option.bind_eq_some_iff] at h
    obtain ⟨fishs, hf, ⟨fishs', _⟩, hv, h⟩ := h
    cases h
    exact (Play.fishVisit hr hf hv).played
  | _ => cases hop

end FishServer
