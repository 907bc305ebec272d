import FishServer.SessionRefine

namespace FishServer

def Session.next (s : Session) (e : Event) : Option Session := some (s.step e)

theorem session_reach {signKey : CStr → ℤ} {ok : Server → Op → Prop} {cond : Session → Event → Prop}
    {s₀ s : Server} (hok : ∀ s op, ok s op → cond s.session (s.event signKey op))
    (h : Transition.Reach (serverStep signKey) ok s₀ s) :
    Transition.Reach Session.next (fun u e => u.Enabled signKey e ∧ cond u e) s₀.session s.session := by
  apply h.map Server.session (fun s op => s.event signKey op)
  intro s op t ha ht
  obtain ⟨he, hs⟩ := serverStep_session ht
  exact ⟨⟨he, hok s op ha⟩, by rw [Session.next, hs]⟩

theorem session_invariant {signKey : CStr → ℤ} {ok : Server → Op → Prop} {s₀ s : Server}
    {P : Session → Prop} (cond : Session → Event → Prop) (hok : ∀ s op, ok s op → cond s.session (s.event signKey op))
    (hstart : P s₀.session) (hstep : ∀ u e, P u → u.Enabled signKey e → cond u e → P (u.step e))
    (h : Transition.Reach (serverStep signKey) ok s₀ s) : P s.session := by
  apply (session_reach hok h).invariant hstart
  rintro u e v hu ⟨he, hc⟩ ⟨⟩
  exact hstep u e hu he hc

/-! A small server for concrete runs: two accounts, all rights, one room. -/

def sampleKey (key : CStr) : ℤ := if key = ['a'] then 7 else if key = ['b'] then 8 else 0

def sampleUser : User := ⟨0, 5, ['n'], [], ⟨true, true, true⟩⟩

def sampleServer : Server :=
  Server.start 1 (fun _ => Room.zero) [⟨1, 1, 1⟩] (fun _ => sampleUser)

def message (fields : List (CStr × CStr)) : JsonValue :=
  fields.foldr (fun f json => .node f.1 (some f.2) .null json) .null

def sampleMessage (i : Slot) (fields : List (CStr × CStr)) : Op := .message i (message fields) 0 0 (fun _ => 0)

def verifyMessage (i : Slot) (key kick : CStr) : Op :=
  sampleMessage i [("op".toList, "verify account".toList), ("key".toList, key), ("kick".toList, kick)]

def inRoom (i : Slot) : Op := sampleMessage i [("op".toList, "in room".toList)]

def kickSocket (i : Slot) (socket : CStr) : Op :=
  sampleMessage i [("op".toList, "kick user".toList), ("socket_id".toList, socket)]

def enter (i : Slot) (socket : ℕ) (key : CStr) : List Op :=
  [.connect socket 0 0, .handshake i, verifyMessage i key ['1'], .verify i key sampleUser]

end FishServer
