import Magnesium.Kernel.Preservation.Account

/-!
# Between operations

What the invariant says where every context is between two operations: an actor is in no list only
while its function runs, and its mail is in its mailbox, in a run queue.
-/

namespace Magnesium

variable {S : Setup} {s : State S} {L : Ledger S} {loc : ActorId → Option (Place S)}
  {spot : MessageId → Option Spot}

theorem Pc.AtRest.carries {pc : Pc S} (h : pc.AtRest) {a : ActorId} (ha : pc.carries = some a) :
    ∃ caller, pc = .inFunc a caller := by
  cases pc with
  | inFunc b caller =>
    obtain rfl : b = a := Option.some.inj ha
    exact ⟨caller, rfl⟩
  | idle | schedule vect => cases ha
  | _ => exact h.elim

namespace ActorInv

/-- An actor that a context works for is in its function, and has no mail. -/
theorem running (h : ActorInv s L loc) (hquiet : s.Quiet) {a : ActorId} {x : Ctx}
    (ha : loc a = some (.carried x)) : (∃ caller, s.pc x = .inFunc a caller) ∧ L.mail a = none := by
  have hcarries := h.carries_of_loc ha
  obtain ⟨caller, hpc⟩ := (hquiet x).carries hcarries
  exact ⟨⟨caller, hpc⟩, (h.carried hpc rfl).2⟩

/-- An actor with mail is in a run queue, with the mail in its mailbox. -/
theorem mail_ready (h : ActorInv s L loc) (hquiet : s.Quiet) {a : ActorId} {m : MessageId}
    (hm : L.mail a = some m) : ∃ c p, a ∈ s.runq c p ∧ s.mailbox a = some m := by
  apply (h.place_of_mail hm).resolve_right
  rintro ⟨x, hx⟩
  rw [(h.running hquiet hx).2] at hm
  cases hm

/-- What is in the mailbox of an actor in a run queue is its mail. -/
theorem ready_mail (h : ActorInv s L loc) {a : ActorId} {c : Fin S.cpuMax} {p : Nat}
    (ha : a ∈ s.runq c p) : s.cpu a = c ∧ s.prio a = p ∧ s.mailbox a = L.mail a := by
  have hready := h.standing a (.ready c p) (h.loc_of_mem (k := .ready c p) ha)
  exact ⟨hready.1, hready.2.1, hready.2.2.mailbox⟩

end ActorInv

/-- A message that is not consumed yet is in its queue or in the mailbox of an actor that is in a
run queue. -/
theorem Inv.unconsumed_kept (h : Inv s L loc spot) (hquiet : s.Quiet) {q : QueueId}
    {m : MessageId} (hm : L.unconsumed m = some q) :
    m ∈ (s.queue q).messages ∨ ∃ a c p, a ∈ s.runq c p ∧ s.mailbox a = some m := by
  rw [h.messages.unconsumed] at hm
  cases hspot : spot m with
  | none =>
    rw [hspot] at hm
    cases hm
  | some k =>
    rw [hspot] at hm
    cases k with
    | held => cases hm
    | queued r =>
      obtain rfl : r = q := Option.some.inj hm
      exact Or.inl ((h.messages.placed.mem_iff (.queued r) m).mpr hspot)
    | mailed a =>
      have hmail := (h.messages.placed.mem_iff (.mailed a) m).mpr hspot
      rw [State.messagesAt, Option.mem_toList] at hmail
      obtain ⟨c, p, ha, hbox⟩ := h.actors.mail_ready hquiet hmail
      exact Or.inr ⟨a, c, p, ha, hbox⟩

end Magnesium
