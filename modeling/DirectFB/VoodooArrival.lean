import DirectFB.VoodooDispatch
import DirectFB.VoodooFraming

/-! Messages from the packets of one peer to the handlers of the other. -/
namespace DirectFB.VoodooFraming
open Memory Transition VoodooDispatch

abbrev Messages := List (List UInt8 × List UInt8)

/-- A packet with these messages, each with its padding. -/
def Packs (payload : List UInt8) (msgs : Messages) : Prop :=
  Valid payload ∧ (∀ x ∈ msgs, WellFormed x.1 x.2) ∧ payload = msgs.flatMap fun x => x.1++x.2

/-- Handled by `ProcessMessages` when the packet is dispatched. -/
def Handled (payload : List UInt8) (msgs : Messages) : Prop :=
  Handles (ofList payload) (UInt64.ofNat payload.length) msgs

theorem Packs.handled {payload : List UInt8} {msgs : Messages} (h : Packs payload msgs) :
    Handled payload msgs := by
  obtain ⟨⟨-,-,hmax⟩,hwell,hpayload⟩ := h
  have hlength : (UInt64.ofNat payload.length).toNat = payload.length :=
    Nat.mod_eq_of_lt (hmax.trans_lt (by decide))
  refine ⟨msgs.length,loop_messages hwell (UInt64.toNat_lt _) (Nat.zero_add _) ?_⟩
  rw [hlength,VoodooMessage.bytes_ofList,hpayload]

/-- However the bytes are cut on their way, the messages that were queued are handled, once and
in their order, and all of them when nothing is on its way. -/
theorem messages_arrive {c : Coder} (hc : c.Lossless) {s : System}
    (h : Reaches (step c) Timely Initial s) {msgs : List Messages}
    (hmsgs : List.Forall₂ Packs s.queued msgs) :
    ∃ handled, handled <+: msgs ∧ List.Forall₂ Handled s.input.dispatched handled ∧
      (s.packets = [] → s.sending = [] → s.wire = [] → s.input.phase = .top → handled = msgs) := by
  obtain ⟨hinv,-,scanned,rest,hframed⟩ := Sound.reaches hc h
  have htake := List.forall₂_take s.input.dispatched.length hmsgs
  have hdispatched : s.queued.take s.input.dispatched.length = s.input.dispatched := by
    rw [hframed.queued,List.append_assoc,List.take_left]
  refine ⟨_,List.take_prefix _ _,(hdispatched ▸ htake).imp fun _ _ => Packs.handled,
    fun hpackets hsending hwire htop => ?_⟩
  rw [hframed.done hinv htop hpackets hsending hwire,hmsgs.length_eq,List.take_length]

def packet : List UInt8 := [13,0,0,0,0,0,0,0,3,0,0,0,7,0,0,0]

def greeting : Messages := [(packet.take 13,[0,0,0])]

theorem greeting_arrives : ∃ s, Reaches (step literal) Timely Initial s ∧
    List.Forall₂ Handled s.input.dispatched [greeting] := by
  obtain ⟨s,hs,hqueued,hpackets,hsending,hwire,htop⟩ : ∃ s, Reaches (step literal) Timely Initial s ∧
      s.queued = [packet] ∧ s.packets = [] ∧ s.sending = [] ∧
      s.wire = [] ∧ s.input.phase = .top := by
    refine ⟨_,.step .run (.step .run (.step (.receive 32) (.step (.send 32) (.step (.take 0 [])
      (.step (.queue packet) (.init (idle_initial 0)) trivial rfl) trivial rfl) trivial rfl) trivial rfl)
      ?_ rfl) ?_ rfl,rfl,rfl,rfl,rfl,rfl⟩
    · rintro p ⟨⟩ hlt
      exact absurd hlt (by decide)
    · rintro p ⟨⟩
  have hpacks : List.Forall₂ Packs s.queued [greeting] := by
    rw [hqueued]
    refine .cons ⟨by decide,fun x hx => ?_,rfl⟩ .nil
    obtain rfl := List.mem_singleton.mp hx
    exact ⟨by decide,by decide,by decide,by decide⟩
  obtain ⟨handled,-,hall,hdone⟩ := messages_arrive literal_lossless hs hpacks
  exact ⟨s,hs,hdone hpackets hsending hwire htop ▸ hall⟩

end DirectFB.VoodooFraming
