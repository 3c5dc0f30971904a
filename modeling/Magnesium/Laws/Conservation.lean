import Magnesium.Kernel.Preservation.Account
import Magnesium.Kernel.Replay

/-!
# Conservation of pools

The memory of a pool is cut into blocks from the front, and a block that is freed waits in the queue
of its pool. Whoever finds no block has looked at both sources: the flag read outside of the lock
only ever changes from true to false.
-/

namespace Magnesium

variable {S : Setup}

/-- The message lies inside the memory of the pool, at a multiple of the size of a block. -/
def Setup.IsBlock (S : Setup) (p : PoolId) (m : Nat) : Prop :=
  ∃ k : Nat, m = S.block p k ∧ m + (S.pool p).blockSz ≤ (S.pool p).array + (S.pool p).totalLength

/-- The event hands the message out of the pool, or gives it back. -/
def Event.Involves (p : PoolId) (m : MessageId) : Event S → Prop
  | .alloc r msg => r = p ∧ msg = some m
  | .poll q msg => q = .pool p ∧ msg = some m
  | .take _ q n | .push q n _ => q = .pool p ∧ n = m
  | _ => False

namespace Setup

/-- Blocks of one pool are apart by multiples of their size, those of two pools by their
memories. -/
theorem IsBlock.apart {p p' : PoolId} {m m' : Nat} (hm : S.IsBlock p m)
    (hm' : S.IsBlock p' m') (hne : m ≠ m') :
    m + (S.pool p).blockSz ≤ m' ∨ m' + (S.pool p').blockSz ≤ m := by
  obtain ⟨k, hmk, hk⟩ := hm
  obtain ⟨k', hmk', hk'⟩ := hm'
  have haddr : m = (S.pool p).array + k * (S.pool p).blockSz := hmk
  have haddr' : m' = (S.pool p').array + k' * (S.pool p').blockSz := hmk'
  by_cases hp : p = p'
  · subst hp
    have hkk : k ≠ k' := by
      rintro rfl
      exact hne (hmk.trans hmk'.symm)
    rcases Nat.lt_or_gt_of_ne hkk with h | h
    · left
      have hmul := Nat.mul_le_mul_right (S.pool p).blockSz (Nat.succ_le_of_lt h)
      rw [Nat.succ_mul] at hmul
      omega
    · right
      have hmul := Nat.mul_le_mul_right (S.pool p).blockSz (Nat.succ_le_of_lt h)
      rw [Nat.succ_mul] at hmul
      omega
  · have hpos := (S.pool_sizes p).1
    have hpos' := (S.pool_sizes p').1
    rcases S.disjoint p p' hp with h | h <;> omega

end Setup

/-- A push on the queue of a pool is the one of `mg_message_free`. -/
theorem State.parent_of_pushes {s : State S} {act : Action S} {p : PoolId} {m : MessageId}
    (hpooled : ∀ p m, act ≠ .push (.pool p) m) (hpush : s.pushes act = some (.pool p, m)) :
    s.parent m = some p := by
  cases act with
  | push q n =>
    cases hpush
    exact absurd rfl (hpooled p m)
  | free n =>
    simp only [State.pushes, Option.map_eq_some_iff, Prod.mk.injEq, QueueId.pool.injEq] at hpush
    obtain ⟨r, hr, rfl, rfl⟩ := hpush
    exact hr
  | _ => cases hpush

/-- A pop adds no message to its queue. -/
theorem QueueInv.pop_subset {s : State S} {L : Ledger S} (h : QueueInv s L) {q : QueueId}
    {Q : Queue MessageId ActorId} {subscriber : Option ActorId} {msg : Option MessageId}
    (hpop : (s.queue q).pop subscriber = some (Q, msg)) {n : MessageId} (hn : n ∈ Q.messages) :
    n ∈ (s.queue q).messages := by
  cases msg with
  | some m =>
    obtain ⟨-, hm, -, -⟩ := (h.valid q).found hpop
    rw [hm]
    exact List.mem_cons_of_mem _ hn
  | none =>
    cases subscriber with
    | none =>
      obtain ⟨rfl, -⟩ := (h.valid q).missed hpop
      exact hn
    | some a =>
      obtain ⟨-, -, hnil, -⟩ := (h.valid q).subscribed hpop
      simp [hnil] at hn

namespace PoolInv

variable {s : State S} {spot : MessageId → Option Spot}

end PoolInv

namespace Section

variable {s s₁ : State S} {x : Ctx} {act : Action S} {pc : Pc S} {es : List (Event S)}

/-- `array_space_available` is never raised again. -/
theorem exhausted_kept (h : Section s x act s₁ pc es) {p : PoolId}
    (hp : (s.pool p).arraySpaceAvailable = false) : (s₁.pool p).arraySpaceAvailable = false := by
  cases h with
  | @carved r _ hav =>
    have hr : p ≠ r := by
      rintro rfl
      rw [hp] at hav
      cases hav
    simpa [State.carve, hav, hr] using hp
  | initialised _ hs =>
    rw [hs]
    exact hp
  | _ => exact hp

/-- `mg_message_alloc` goes to its pop only where the flag is down. -/
theorem popping (h : Section s x act s₁ (.allocPop p) es) :
    (s.pool p).arraySpaceAvailable = false := by
  generalize htarget : Pc.allocPop (S := S) p = target at h
  cases h with
  | @allocStarted r _ =>
    split at htarget
    · cases htarget
    · rename_i hav
      cases htarget
      simpa using hav
  | exhausted _ hav =>
    cases htarget
    exact hav
  | tickDone _ _ | tickWoken _ _ _ | tickMoved _ _ _ => cases htarget
  | @initialised _ _ q _ _ _ => cases q <;> cases htarget
  | @left _ _ caller _ _ => cases caller <;> cases htarget
  | @slept _ caller _ _ _ _ => cases caller <;> cases htarget
  | @yielded _ caller _ => cases caller <;> cases htarget
  | @requested _ activator _ => cases activator <;> cases htarget
  | delayed _ => split at htarget <;> cases htarget
  | _ => cases htarget

/-- A message keeps its pool. -/
theorem parent_kept (h : Section s x act s₁ pc es) {spot : MessageId → Option Spot}
    (hpool : PoolInv s spot) {m : MessageId} {p : PoolId} (hm : s.parent m = some p) :
    s₁.parent m = some p := by
  cases h with
  | @carved r _ hav =>
    obtain ⟨n, -, hblock, hnone, -⟩ := hpool.next_block hav
    have hne : m ≠ S.block r n := by
      rintro rfl
      rw [hnone] at hm
      cases hm
    simpa [State.carve, hav, hblock, hne] using hm
  | initialised _ hs =>
    rw [hs]
    exact hm
  | _ => exact hm

/-- Only `mg_message_free` puts a message in the queue of a pool. -/
theorem queued (h : Section s x act s₁ pc es) {L : Ledger S} (hq : QueueInv s L)
    (hpooled : ∀ p m, act ≠ .push (.pool p) m) {p : PoolId} {m : MessageId}
    (hm : m ∈ (s₁.queue (.pool p)).messages) :
    m ∈ (s.queue (.pool p)).messages ∨ s.parent m = some p := by
  have hset : ∀ {q : QueueId} {Q : Queue MessageId ActorId},
      (∀ n ∈ Q.messages, n ∈ (s.queue q).messages ∨ ∀ r, q = .pool r → s.parent n = some r) →
      m ∈ (Function.update s.queue q Q (.pool p)).messages →
      m ∈ (s.queue (.pool p)).messages ∨ s.parent m = some p := by
    intro q Q hQ hmem
    by_cases hqp : q = .pool p
    · subst hqp
      rw [Function.update_self] at hmem
      exact (hQ m hmem).imp_right fun hparent => hparent p rfl
    · rw [Function.update_of_ne (Ne.symm hqp)] at hmem
      exact Or.inl hmem
  cases h with
  | @stored _ q n Q _ hpush hQ =>
    obtain ⟨-, hstored, -, -⟩ := (hq.valid q).stored hQ
    refine hset (fun n' hn' => ?_) hm
    rw [hstored] at hn'
    refine (List.mem_append.mp hn').imp_right fun hlast r hr => ?_
    rw [List.mem_singleton.mp hlast]
    exact State.parent_of_pushes hpooled (hr ▸ hpush)
  | @handed _ q n Q a _ _ hQ =>
    obtain ⟨-, -, hnil, -⟩ := (hq.valid q).handed hQ
    exact hset (fun n' hn' => by simp [hnil] at hn') hm
  | polled _ hpop => exact hset (fun n hn => Or.inl (hq.pop_subset hpop hn)) hm
  | allocPopped _ hpop => exact hset (fun n hn => Or.inl (hq.pop_subset hpop hn)) hm
  | taken _ hpop => exact hset (fun n hn => Or.inl (hq.pop_subset hpop hn)) hm
  | subscribed _ hpop => exact hset (fun n hn => Or.inl (hq.pop_subset hpop hn)) hm
  | initSubscribed _ hpop => exact hset (fun n hn => Or.inl (hq.pop_subset hpop hn)) hm
  | @carved r _ hav => exact Or.inl (by simpa [State.carve, hav] using hm)
  | initialised _ hs =>
    rw [hs] at hm
    exact Or.inl hm
  | _ => exact Or.inl hm

/-- What an event hands out of a pool, or gives back, belongs to the pool. -/
theorem involved (h : Section s x act s₁ pc es) {L : Ledger S} (hq : QueueInv s L)
    (hpooled : ∀ p m, act ≠ .push (.pool p) m)
    (hqueued : ∀ p, ∀ m ∈ (s.queue (.pool p)).messages, s.parent m = some p) {e : Event S}
    (he : e ∈ es) {p : PoolId} {m : MessageId} (hi : e.Involves p m) : s₁.parent m = some p := by
  have hfound : ∀ {Q subscriber}, (s.queue (.pool p)).pop subscriber = some (Q, some m) →
      s.parent m = some p := by
    intro Q subscriber hpop
    obtain ⟨-, hm, -, -⟩ := (hq.valid (.pool p)).found hpop
    exact hqueued p m (by rw [hm]; exact List.mem_cons_self)
  cases h with
  | stored _ hpush _ | handed _ hpush _ =>
    rw [List.mem_singleton.mp he] at hi
    obtain ⟨rfl, rfl⟩ := hi
    exact State.parent_of_pushes hpooled hpush
  | polled _ hpop =>
    rw [List.mem_singleton.mp he] at hi
    obtain ⟨rfl, rfl⟩ := hi
    exact hfound hpop
  | @carved r _ hav =>
    rw [List.mem_singleton.mp he] at hi
    obtain ⟨rfl, hm⟩ := hi
    rw [← Option.some.inj hm]
    simp [State.carve, hav]
  | @allocPopped r Q msg _ hpop =>
    have hr : r = p ∧ msg = some m := by
      rcases List.mem_cons.mp he with rfl | he
      · exact ⟨QueueId.pool.inj hi.1, hi.2⟩
      · rw [List.mem_singleton.mp he] at hi
        exact hi
    obtain ⟨rfl, rfl⟩ := hr
    exact hfound hpop
  | taken _ hpop =>
    rw [List.mem_singleton.mp he] at hi
    obtain ⟨rfl, rfl⟩ := hi
    exact hfound hpop
  | initialised _ _ | dispatched _ _ | called _ | returnedQueue _ | returnedSleep _ | yielded _
  | inserted _ =>
    rw [List.mem_singleton.mp he] at hi
    exact hi.elim
  | _ => exact absurd he List.not_mem_nil

/-- `mg_message_alloc` returns null from its pop. -/
theorem alloc_none (h : Section s x act s₁ pc es) {p : PoolId} (he : .alloc p none ∈ es) :
    s.pc x = .allocPop p ∧ ∃ Q, (s.queue (.pool p)).pop none = some (Q, none) := by
  cases h with
  | @allocPopped r Q msg hpc hpop =>
    have hr : p = r ∧ none = msg := by simpa using he
    obtain ⟨rfl, rfl⟩ := hr
    exact ⟨hpc, Q, hpop⟩
  | _ => simp at he

end Section

/-- What a run has established about the sources of the blocks. -/
structure Custody (s : State S) (log : List (Event S)) : Prop where
  queued : ∀ p, ∀ m ∈ (s.queue (.pool p)).messages, s.parent m = some p
  involved : ∀ e ∈ log, ∀ p m, e.Involves p m → s.parent m = some p
  popping : ∀ x p, s.pc x = .allocPop p → (s.pool p).arraySpaceAvailable = false
  null : ∀ p, .alloc p none ∈ log → (s.pool p).arraySpaceAvailable = false

variable {s : State S} {log : List (Event S)}

theorem Custody.boot (S : Setup) : Custody (State.boot S) [] where
  queued p m hm := by simp [State.boot, Queue.init, Queue.messages] at hm
  involved e he := absurd he List.not_mem_nil
  popping x p hpc := by cases hpc
  null p he := absurd he List.not_mem_nil

theorem Custody.step (h : Custody s log) {L : Ledger S} {loc : ActorId → Option (Place S)}
    {spot : MessageId → Option Spot} (hinv : Inv s L loc spot) {x : Ctx} {act : Action S}
    {s₁ : State S} {pc : Pc S} {es : List (Event S)}
    (hpooled : ∀ p m, act ≠ .push (.pool p) m) (hsec : Section s x act s₁ pc es) :
    Custody (s₁.setPc x pc) (log ++ es) where
  queued p m hm := by
    apply hsec.parent_kept hinv.pools
    rcases hsec.queued hinv.queues hpooled hm with hbefore | hparent
    · exact h.queued p m hbefore
    · exact hparent
  involved e he p m hi := by
    rcases List.mem_append.mp he with he | he
    · exact hsec.parent_kept hinv.pools (h.involved e he p m hi)
    · exact hsec.involved hinv.queues hpooled h.queued he hi
  popping y p hpc := by
    apply hsec.exhausted_kept
    by_cases hy : y = x
    · have hpcx : pc = .allocPop p := by simpa [State.setPc, hy] using hpc
      subst hpcx
      exact hsec.popping
    · have hpcy : s.pc y = .allocPop p := by simpa [State.setPc, hy, hsec.pc_eq] using hpc
      exact h.popping y p hpcy
  null p he := by
    apply hsec.exhausted_kept
    rcases List.mem_append.mp he with he | he
    · exact h.null p he
    · exact h.popping x p (hsec.alloc_none he).1

end Magnesium
