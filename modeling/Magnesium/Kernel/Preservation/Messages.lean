import Magnesium.Kernel.Preservation.Actors

/-!
# The messages along a run

Every message is in one spot: a queue, the mail of an actor, or the hands of clients. The memory
of a pool is carved from the front, so a block that has not been carved yet is in none.
-/

namespace Magnesium

variable {S : Setup}

namespace Setup

/-- The address of the `k`-th block of a pool. -/
def block (S : Setup) (p : PoolId) (k : Nat) : MessageId :=
  (S.pool p).array + k * (S.pool p).blockSz

/-- What `mg_message_pool_init` has checked, and the size of an object. -/
theorem pool_sizes (S : Setup) (p : PoolId) : 0 < (S.pool p).blockSz ∧
    (S.pool p).blockSz ≤ (S.pool p).totalLength ∧ 2 * (S.pool p).totalLength ≤ S.sizeMax := by
  obtain ⟨mem, totalLen, blockSz, hinit, hmax⟩ := S.accepted p
  have hpos := S.messageSize_pos
  unfold messagePoolInit at hinit
  split at hinit
  · rename_i hok
    rw [← Option.some.inj hinit]
    refine ⟨?_, hok.1, ?_⟩
    · have := hok.2
      change 0 < blockSz
      omega
    · change 2 * totalLen ≤ S.sizeMax
      omega
  · cases hinit

theorem pool_initial (S : Setup) (p : PoolId) :
    (S.pool p).offset = 0 ∧ (S.pool p).arraySpaceAvailable = true := by
  obtain ⟨mem, totalLen, blockSz, hinit, -⟩ := S.accepted p
  unfold messagePoolInit at hinit
  split at hinit
  · rw [← Option.some.inj hinit]
    exact ⟨rfl, rfl⟩
  · cases hinit

/-- A block is in the memory of one pool only. -/
theorem block_inj (S : Setup) {p p' : PoolId} {k k' : Nat}
    (hk : k * (S.pool p).blockSz < (S.pool p).totalLength)
    (hk' : k' * (S.pool p').blockSz < (S.pool p').totalLength)
    (heq : S.block p k = S.block p' k') : p = p' ∧ k = k' := by
  have haddr : (S.pool p).array + k * (S.pool p).blockSz =
      (S.pool p').array + k' * (S.pool p').blockSz := heq
  have hp : p = p' := by
    by_contra hne
    rcases S.disjoint p p' hne with h | h <;> omega
  subst hp
  exact ⟨rfl, Nat.eq_of_mul_eq_mul_right (S.pool_sizes p).1 (by omega)⟩

end Setup

/-- The queue a message in this spot was pushed on, if it is to be consumed yet. -/
def Spot.pushedOn (L : Ledger S) : Option Spot → Option QueueId
  | some (.queued q) => some q
  | some (.mailed a) => L.awaits a
  | some .held | none => none

/-- The part of the invariant about messages. -/
structure MessageInv (s : State S) (L : Ledger S) (spot : MessageId → Option Spot) : Prop where
  placed : Placed (s.messagesAt L) spot
  unconsumed : ∀ m, L.unconsumed m = Spot.pushedOn L (spot m)

/-- The part of the invariant about pools. -/
structure PoolInv (s : State S) (spot : MessageId → Option Spot) : Prop where
  array : ∀ p, (s.pool p).array = (S.pool p).array
  totalLength : ∀ p, (s.pool p).totalLength = (S.pool p).totalLength
  blockSz : ∀ p, (s.pool p).blockSz = (S.pool p).blockSz
  offset : ∀ p, ∃ n, (s.pool p).offset = n * (S.pool p).blockSz
  offset_le : ∀ p, (s.pool p).offset ≤ (S.pool p).totalLength
  available : ∀ p, (s.pool p).arraySpaceAvailable = true ↔
    (s.pool p).offset + (S.pool p).blockSz ≤ (S.pool p).totalLength
  parent : ∀ m p, s.parent m = some p ↔
    ∃ k, m = S.block p k ∧ k * (S.pool p).blockSz < (s.pool p).offset
  known : ∀ m, spot m ≠ none → m ∈ S.statics ∨ ∃ p, s.parent m = some p

theorem State.held_of_pushes {s : State S} {act : Action S} {q : QueueId} {m : MessageId}
    (hadm : s.Admits act) (hpush : s.pushes act = some (q, m)) : m ∈ s.held := by
  cases act with
  | push r n =>
    cases hpush
    exact hadm
  | free n =>
    simp only [State.pushes, Option.map_eq_some_iff, Prod.mk.injEq] at hpush
    obtain ⟨p, -, -, rfl⟩ := hpush
    exact hadm
  | _ => cases hpush

namespace PoolInv

variable {s s₁ : State S} {spot : MessageId → Option Spot}

/-- No pool is touched, and messages move between spots only. -/
theorem same (h : PoolInv s spot) {spot' : MessageId → Option Spot} (hpool : s₁.pool = s.pool)
    (hparent : s₁.parent = s.parent) (hspot : ∀ m, spot' m ≠ none → spot m ≠ none) :
    PoolInv s₁ spot' := by
  refine ⟨?_, ?_, ?_, ?_, ?_, ?_, ?_, fun m hm => ?_⟩
  · rw [hpool]
    exact h.array
  · rw [hpool]
    exact h.totalLength
  · rw [hpool]
    exact h.blockSz
  · rw [hpool]
    exact h.offset
  · rw [hpool]
    exact h.offset_le
  · rw [hpool]
    exact h.available
  · rw [hpool, hparent]
    exact h.parent
  · rw [hparent]
    exact h.known m (hspot m hm)

/-- The next block has never been handed out. -/
theorem next_block (h : PoolInv s spot) {p : PoolId}
    (hav : (s.pool p).arraySpaceAvailable = true) :
    ∃ n, (s.pool p).offset = n * (S.pool p).blockSz ∧
      (s.pool p).array + (s.pool p).offset = S.block p n ∧
      s.parent (S.block p n) = none ∧ spot (S.block p n) = none := by
  obtain ⟨n, hn⟩ := h.offset p
  have hroom := (h.available p).mp hav
  have hpos := (S.pool_sizes p).1
  have hlt : n * (S.pool p).blockSz < (S.pool p).totalLength := by omega
  have hparent : s.parent (S.block p n) = none := by
    rw [Option.eq_none_iff_forall_ne_some]
    intro p' hp'
    obtain ⟨k, heq, hk⟩ := (h.parent _ p').mp hp'
    have hle := h.offset_le p'
    obtain ⟨rfl, rfl⟩ := S.block_inj hlt (by omega) heq
    omega
  refine ⟨n, hn, by rw [h.array, hn, Setup.block], hparent, ?_⟩
  by_contra hne
  rcases h.known _ hne with hstatic | ⟨p', hp'⟩
  · exact S.statics_outside _ hstatic p ⟨Nat.le_add_right _ _, Nat.add_lt_add_left hlt _⟩
  · rw [hparent] at hp'
    cases hp'

/-- Carving: the sums do not wrap, and the flag says whether another whole block fits. -/
theorem carve (h : PoolInv s spot) {p : PoolId} (hav : (s.pool p).arraySpaceAvailable = true)
    {k : Spot} : PoolInv (s.carve p).1
      (Function.update spot ((s.pool p).array + (s.pool p).offset) (some k)) := by
  obtain ⟨n, hn, hblock, hparent, hspot⟩ := h.next_block hav
  have hroom := (h.available p).mp hav
  obtain ⟨hpos, hle, hmax⟩ := S.pool_sizes p
  have hsum : State.addSize S (s.pool p).offset (s.pool p).blockSz =
      (s.pool p).offset + (S.pool p).blockSz := by
    rw [State.addSize, h.blockSz, Nat.mod_eq_of_lt (by omega)]
  have hsum' : State.addSize S ((s.pool p).offset + (S.pool p).blockSz) (s.pool p).blockSz =
      (s.pool p).offset + (S.pool p).blockSz + (S.pool p).blockSz := by
    rw [State.addSize, h.blockSz, Nat.mod_eq_of_lt (by omega)]
  have hpool : ∀ r, r ≠ p → ((s.carve p).1.pool r) = s.pool r := by
    intro r hr
    simp [State.carve, hav, hr]
  have hself : (s.carve p).1.pool p = { s.pool p with
      offset := (s.pool p).offset + (S.pool p).blockSz
      arraySpaceAvailable := decide ((s.pool p).offset + (S.pool p).blockSz +
        (S.pool p).blockSz ≤ (s.pool p).totalLength) } := by
    simp [State.carve, hav, hsum, hsum']
  have hparents : (s.carve p).1.parent =
      Function.update s.parent ((s.pool p).array + (s.pool p).offset) (some p) := by
    simp [State.carve, hav]
  rw [hblock] at hparents ⊢
  refine ⟨fun r => ?_, fun r => ?_, fun r => ?_, fun r => ?_, fun r => ?_, fun r => ?_,
    fun m r => ?_, fun m hm => ?_⟩
  · by_cases hr : r = p
    · rw [hr, hself]
      exact h.array p
    · rw [hpool r hr]
      exact h.array r
  · by_cases hr : r = p
    · rw [hr, hself]
      exact h.totalLength p
    · rw [hpool r hr]
      exact h.totalLength r
  · by_cases hr : r = p
    · rw [hr, hself]
      exact h.blockSz p
    · rw [hpool r hr]
      exact h.blockSz r
  · by_cases hr : r = p
    · rw [hr, hself]
      exact ⟨n + 1, by rw [hn, Nat.add_mul, Nat.one_mul]⟩
    · rw [hpool r hr]
      exact h.offset r
  · by_cases hr : r = p
    · rw [hr, hself]
      exact hroom
    · rw [hpool r hr]
      exact h.offset_le r
  · by_cases hr : r = p
    · rw [hr, hself, h.totalLength, decide_eq_true_eq]
    · rw [hpool r hr]
      exact h.available r
  · rw [hparents]
    by_cases hm : m = S.block p n
    · subst hm
      rw [Function.update_self]
      constructor
      · intro he
        obtain rfl := Option.some.inj he
        refine ⟨n, rfl, ?_⟩
        rw [hself, ← hn]
        change (s.pool p).offset < (s.pool p).offset + (S.pool p).blockSz
        omega
      · rintro ⟨k, heq, hk⟩
        by_cases hr : r = p
        · rw [hr]
        · rw [hpool r hr] at hk
          have hle' := h.offset_le r
          exact absurd (S.block_inj (by omega) (by omega) heq).1.symm hr
    · rw [Function.update_of_ne hm, h.parent]
      by_cases hr : r = p
      · subst hr
        rw [hself]
        constructor
        · rintro ⟨k, heq, hk⟩
          refine ⟨k, heq, ?_⟩
          change _ < (s.pool r).offset + (S.pool r).blockSz
          omega
        · rintro ⟨k, heq, hk⟩
          refine ⟨k, heq, ?_⟩
          change _ < (s.pool r).offset + (S.pool r).blockSz at hk
          have hkn : k ≠ n := by
            rintro rfl
            exact hm heq
          have hlt : k < n + 1 := by
            apply Nat.lt_of_mul_lt_mul_right (a := (S.pool r).blockSz)
            rw [Nat.add_mul, Nat.one_mul, ← hn]
            exact hk
          rw [hn]
          exact Nat.mul_lt_mul_of_pos_right (by omega) hpos
      · rw [hpool r hr]
  · rw [hparents]
    by_cases hmb : m = S.block p n
    · exact Or.inr ⟨p, by rw [hmb, Function.update_self]⟩
    · rw [Function.update_of_ne hmb] at hm ⊢
      exact h.known m hm

end PoolInv

namespace MessageInv

variable {s s₁ : State S} {L L' : Ledger S} {spot : MessageId → Option Spot}

/-- No message moves; only actors without mail may ask for another queue. -/
theorem same (h : MessageInv s L spot) (hlists : ∀ k, s₁.messagesAt L' k = s.messagesAt L k)
    (hunconsumed : L'.unconsumed = L.unconsumed)
    (hawaits : ∀ a, L.mail a ≠ none → L'.awaits a = L.awaits a) : MessageInv s₁ L' spot := by
  refine ⟨h.placed.congr hlists, fun m => ?_⟩
  rw [hunconsumed, h.unconsumed]
  cases hm : spot m with
  | none => rfl
  | some k =>
    cases k with
    | mailed a =>
      have hmem := (h.placed.mem_iff (.mailed a) m).mpr hm
      refine (hawaits a ?_).symm
      intro hnone
      simp [State.messagesAt, hnone] at hmem
    | _ => rfl

/-- One message moves from a spot to another. -/
theorem move (h : MessageInv s L spot) {m : MessageId} {i j : Spot} (hne : i ≠ j)
    (hi : (s.messagesAt L i).Perm (m :: s₁.messagesAt L' i))
    (hj : (s₁.messagesAt L' j).Perm (m :: s.messagesAt L j))
    (hrest : ∀ k, k ≠ i → k ≠ j → s₁.messagesAt L' k = s.messagesAt L k)
    (hawaits : L'.awaits = L.awaits)
    (hunconsumed : L'.unconsumed = Function.update L.unconsumed m
      (Spot.pushedOn L (some j))) : MessageInv s₁ L' (Function.update spot m (some j)) := by
  refine ⟨h.placed.move hne hi hj hrest, fun n => ?_⟩
  have hsame : ∀ k, Spot.pushedOn L' k = Spot.pushedOn L k := by
    intro k
    cases k with
    | none => rfl
    | some k => cases k <;> simp [Spot.pushedOn, hawaits]
  rw [hsame, hunconsumed]
  by_cases hn : n = m
  · rw [hn, Function.update_self, Function.update_self]
  · rw [Function.update_of_ne hn, Function.update_of_ne hn]
    exact h.unconsumed n

theorem spot_of_mem (h : MessageInv s L spot) {k : Spot} {m : MessageId}
    (hm : m ∈ s.messagesAt L k) : spot m = some k := (h.placed.mem_iff k m).mp hm

/-- A client takes the first message of a queue, if there is one. -/
theorem poll (h : MessageInv s L spot) (hq : QueueInv s L) {q : QueueId}
    {Q : Queue MessageId ActorId} {msg : Option MessageId}
    (hpop : (s.queue q).pop none = some (Q, msg)) :
    ∃ spot', MessageInv { s.setQueue q Q with held := msg.toList ++ s.held }
      (L.step (.poll q msg)) spot' ∧ ∀ m, spot' m ≠ none → spot m ≠ none := by
  cases msg with
  | none =>
    obtain ⟨rfl, -⟩ := (hq.valid q).missed hpop
    refine ⟨spot, h.same (fun k => ?_) rfl (fun _ _ => rfl), fun _ hm => hm⟩
    cases k with
    | queued r =>
      change (Function.update s.queue q (s.queue q) r).messages = _
      rw [Function.update_eq_self]
      rfl
    | _ => rfl
  | some m =>
    obtain ⟨-, hm, -, -⟩ := (hq.valid q).found hpop
    have hspot : spot m = some (.queued q) :=
      h.spot_of_mem (k := .queued q) (by rw [State.messagesAt, hm]; exact List.mem_cons_self)
    refine ⟨_, h.move (i := .queued q) (j := .held) (m := m) (by simp) ?_
      (List.Perm.refl _) (fun k hk _ => ?_) rfl rfl, fun n hn => ?_⟩
    · simp [State.messagesAt, State.setQueue, hm]
    · cases k with
      | queued r =>
        have hr : r ≠ q := fun he => hk (by rw [he])
        simp [State.messagesAt, State.setQueue, hr]
      | mailed a => rfl
      | held => contradiction
    · by_cases hnm : n = m
      · rw [hnm, hspot]
        simp
      · rwa [Function.update_of_ne hnm] at hn

/-- An actor that subscribes to a queue without messages moves none. -/
theorem subscribe (h : MessageInv s L spot) (hq : QueueInv s L) {q : QueueId}
    {Q : Queue MessageId ActorId} {a : ActorId}
    (hpop : (s.queue q).pop (some a) = some (Q, none)) : MessageInv (s.setQueue q Q) L spot := by
  obtain ⟨-, hm, hm', -⟩ := (hq.valid q).subscribed hpop
  refine h.same (fun k => ?_) rfl fun _ _ => rfl
  cases k with
  | queued r =>
    by_cases hr : r = q
    · simp [State.messagesAt, State.setQueue, hr, hm, hm']
    · simp [State.messagesAt, State.setQueue, hr]
  | _ => rfl

/-- Every section of a race-free run moves at most one message, between two spots. -/
theorem step (h : MessageInv s L spot) (hpool : PoolInv s spot) (hq : QueueInv s L)
    {loc : ActorId → Option (Place S)} (ha : ActorInv s L loc) {x : Ctx} {act : Action S}
    {pc : Pc S} {es : List (Event S)} (hadm : s.Admits act) (hsec : Section s x act s₁ pc es) :
    ∃ spot', MessageInv (s₁.setPc x pc) (L.after es) spot' ∧ PoolInv (s₁.setPc x pc) spot' := by
  -- a section that neither moves a message nor touches a pool
  have hstill : ∀ {s₂ : State S} {L₂ : Ledger S},
      (∀ k, s₂.messagesAt L₂ k = s.messagesAt L k) → L₂.unconsumed = L.unconsumed →
      (∀ a, L.mail a ≠ none → L₂.awaits a = L.awaits a) → s₂.pool = s.pool →
      s₂.parent = s.parent → ∃ spot', MessageInv s₂ L₂ spot' ∧ PoolInv s₂ spot' :=
    fun hl hu hw hp hpar => ⟨spot, h.same hl hu hw, hpool.same hp hpar fun _ hm => hm⟩
  -- a message that moves was in some spot before
  have hmoved : ∀ {m : MessageId} {i j : Spot}, spot m = some i →
      ∀ n, Function.update spot m (some j) n ≠ none → spot n ≠ none := by
    intro m i j hi n hn
    by_cases hnm : n = m
    · rw [hnm, hi]
      simp
    · rwa [Function.update_of_ne hnm] at hn
  cases hsec with
  | @stored _ q m Q _ hpush hQ =>
    obtain ⟨-, hm, -, -⟩ := (hq.valid q).stored hQ
    have hheld := State.held_of_pushes hadm hpush
    have hspot := h.spot_of_mem (k := .held) hheld
    refine ⟨_, h.move (i := .held) (j := .queued q) (m := m) (by simp)
      (List.perm_cons_erase hheld) ?_ (fun k hk hkq => ?_) rfl rfl,
      hpool.same rfl rfl (hmoved hspot)⟩
    · simp [State.messagesAt, State.setPc, State.setQueue, hm]
    · cases k with
      | queued r =>
        have hr : r ≠ q := fun he => hkq (by rw [he])
        simp [State.messagesAt, State.setPc, State.setQueue, hr]
      | mailed a => rfl
      | held => contradiction
  | @handed _ q m Q a _ hpush hQ =>
    obtain ⟨-, hm, hm', hw⟩ := (hq.valid q).handed hQ
    have hheld := State.held_of_pushes hadm hpush
    have hspot := h.spot_of_mem (k := .held) hheld
    obtain ⟨hmail, hawaits⟩ := ha.standing a (.waits q)
      (ha.loc_of_mem (by rw [State.actorsAt, hw]; exact List.mem_cons_self))
    refine ⟨_, h.move (i := .held) (j := .mailed a) (m := m) (by simp)
      (List.perm_cons_erase hheld) ?_ (fun k hk hka => ?_) rfl ?_,
      hpool.same rfl rfl (hmoved hspot)⟩
    · simp [State.messagesAt, Ledger.after, Ledger.step, hmail]
    · cases k with
      | queued r =>
        by_cases hr : r = q
        · simp [State.messagesAt, State.setPc, State.setMailbox, State.setQueue, hr, hm, hm']
        · simp [State.messagesAt, State.setPc, State.setMailbox, State.setQueue, hr]
      | mailed b =>
        have hb : b ≠ a := fun he => hka (by rw [he])
        simp [State.messagesAt, Ledger.after, Ledger.step, hb]
      | held => contradiction
    · simp [Ledger.after, Ledger.step, Spot.pushedOn, hawaits]
  | polled _ hpop =>
    obtain ⟨spot', hmsg, hspot⟩ := h.poll hq hpop
    exact ⟨spot', hmsg.same (fun k => by cases k <;> rfl) rfl fun _ _ => rfl,
      hpool.same rfl rfl hspot⟩
  | allocPopped _ hpop =>
    obtain ⟨spot', hmsg, hspot⟩ := h.poll hq hpop
    exact ⟨spot', hmsg.same (fun k => by cases k <;> rfl) rfl fun _ _ => rfl,
      hpool.same rfl rfl hspot⟩
  | @carved p _ hav =>
    obtain ⟨n, -, hblock, -, hspot⟩ := hpool.next_block hav
    have hcarve := hpool.carve hav (k := .held)
    rw [hblock] at hcarve
    refine ⟨_, ⟨?_, fun m => ?_⟩, hcarve.same rfl rfl fun _ hm => hm⟩
    · apply h.placed.adopt hspot
      · simp [State.messagesAt, State.setPc, State.carve, hav, hblock]
      · intro k hk
        cases k with
        | queued r => simp [State.messagesAt, State.setPc, State.carve, hav]
        | mailed a => rfl
        | held => contradiction
    · change L.unconsumed m = _
      rw [h.unconsumed]
      by_cases hm : m = S.block p n
      · rw [hm, hspot, Function.update_self]
        rfl
      · rw [Function.update_of_ne hm]
        rfl
  | @initialised a vect q _ _ hs =>
    have hmail : L.mail a = none := (ha.fresh a (ha.loc_of_fresh hadm)).1
    subst hs
    refine hstill (fun k => by cases k <;> rfl) rfl (fun b hb => ?_) rfl rfl
    have hba : b ≠ a := fun he => hb (by rw [he, hmail])
    simp [Ledger.after, Ledger.step, hba]
  | @called a caller hpc =>
    have hc := ha.carried hpc rfl
    have hmailbox : s.mailbox a = L.mail a := hc.2.mailbox
    cases hmail : L.mail a with
    | none =>
      rw [hmail] at hmailbox
      refine hstill (fun k => ?_) ?_ (fun _ _ => ?_) rfl rfl
      · cases k with
        | mailed b =>
          by_cases hb : b = a
          · simp [State.messagesAt, Ledger.after, Ledger.step, hb, hmail]
          · simp [State.messagesAt, Ledger.after, Ledger.step, hb]
        | queued r => rfl
        | held => simp [State.messagesAt, State.setPc, hmailbox]
      · simp [Ledger.after, Ledger.step, Ledger.consume, hmailbox]
      · simp [Ledger.after, Ledger.step]
    | some m =>
      rw [hmail] at hmailbox
      have hspot : spot m = some (.mailed a) :=
        h.spot_of_mem (k := .mailed a) (by simp [State.messagesAt, hmail])
      refine ⟨_, h.move (i := .mailed a) (j := .held) (m := m) (by simp) ?_ ?_
        (fun k hk hkh => ?_) ?_ ?_, hpool.same rfl rfl (hmoved hspot)⟩
      · simp [State.messagesAt, Ledger.after, Ledger.step, hmail]
      · simp [State.messagesAt, State.setPc, hmailbox]
      · cases k with
        | mailed b =>
          have hb : b ≠ a := fun he => hk (by rw [he])
          simp [State.messagesAt, Ledger.after, Ledger.step, hb]
        | queued r => rfl
        | held => contradiction
      · simp [Ledger.after, Ledger.step]
      · simp [Ledger.after, Ledger.step, Ledger.consume, hmailbox, Spot.pushedOn]
  | @returnedQueue a caller q hpc =>
    have hc := ha.carried hpc rfl
    refine hstill (fun k => by cases k <;> rfl) rfl (fun b hb => ?_) rfl rfl
    have hba : b ≠ a := fun he => hb (by rw [he]; exact hc.2)
    simp [Ledger.after, Ledger.step, hba]
  | @returnedSleep a caller delay hpc =>
    have hc := ha.carried hpc rfl
    refine hstill (fun k => by cases k <;> rfl) rfl (fun b hb => ?_) rfl rfl
    have hba : b ≠ a := fun he => hb (by rw [he]; exact hc.2)
    simp [Ledger.after, Ledger.step, hba]
  | @taken a q caller Q m hpc hpop =>
    have hc := ha.carried hpc rfl
    have hmail : L.mail a = none := hc.2.1
    have hawaits : L.awaits a = some q := hc.2.2
    obtain ⟨-, hm, -, -⟩ := (hq.valid q).found hpop
    have hspot : spot m = some (.queued q) :=
      h.spot_of_mem (k := .queued q) (by rw [State.messagesAt, hm]; exact List.mem_cons_self)
    have hunconsumed : L.unconsumed m = some q := by rw [h.unconsumed, hspot]; rfl
    refine ⟨_, h.move (i := .queued q) (j := .mailed a) (m := m) (by simp) ?_ ?_
      (fun k hk hka => ?_) rfl ?_, hpool.same rfl rfl (hmoved hspot)⟩
    · simp [State.messagesAt, State.setPc, State.setQueue, hm]
    · simp [State.messagesAt, Ledger.after, Ledger.step, hmail]
    · cases k with
      | queued r =>
        have hr : r ≠ q := fun he => hk (by rw [he])
        simp [State.messagesAt, State.setPc, State.setQueue, hr]
      | mailed b =>
        have hb : b ≠ a := fun he => hka (by rw [he])
        simp [State.messagesAt, Ledger.after, Ledger.step, hb]
      | held => rfl
    · rw [Spot.pushedOn, hawaits, ← hunconsumed, Function.update_eq_self]
      rfl
  | subscribed _ hpop =>
    exact ⟨spot, (h.subscribe hq hpop).same (fun k => by cases k <;> rfl) rfl fun _ _ => rfl,
      hpool.same rfl rfl fun _ hm => hm⟩
  | initSubscribed _ hpop =>
    exact ⟨spot, (h.subscribe hq hpop).same (fun k => by cases k <;> rfl) rfl fun _ _ => rfl,
      hpool.same rfl rfl fun _ hm => hm⟩
  | _ => exact hstill (fun k => by cases k <;> rfl) rfl (fun _ _ => rfl) rfl rfl

end MessageInv

end Magnesium
