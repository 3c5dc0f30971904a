import Magnesium.Core.Structured
import Magnesium.Kernel.Program

/-!
# Actors as protothreads

`MG_ACTOR_START`, `MG_AWAIT` and `MG_ACTOR_END` turn the function of an actor into a `switch` over a
static variable. What the author of the function means is a coroutine: a call goes on after the
`MG_AWAIT` that returned last. The two agree on every sequence of calls, for functions of `while`
loops and branches in which an `MG_AWAIT` is a statement of its own or stands in braces, in no other
`switch`, and with no local variable in use across it.
-/

namespace Magnesium.Protothread

open Structured

-- `σ` is the memory that outlives a call, `α` are the arguments of one.
variable {σ α : Type}

/-- The statements of an actor's function. Local variables do not outlive a call, so what is read
after an `MG_AWAIT` is static. -/
inductive Atom (σ α : Type) where
  | act (f : α → σ → σ)
  /-- `MG_AWAIT(q)` on a line. -/
  | await (line : Nat) (q : α → σ → QueuePtr × σ)
  /-- `return q`. -/
  | ret (q : α → σ → QueuePtr × σ)

/-- A condition, with its side effects. -/
abbrev Cond (σ α : Type) := α → σ → Bool × σ

def Atom.line : Atom σ α → Option Nat
  | .await line _ => some line
  | _ => none

/-- The function of an actor between `MG_ACTOR_START` and `MG_ACTOR_END`. Two labels of a `switch`
differ, and lines are counted from one. -/
structure ActorFn (σ α : Type) where
  body : Stmt (Atom σ α) (Cond σ α)
  lines_nodup : (body.labels Atom.line).Nodup
  lines_pos : 0 ∉ body.labels Atom.line

/-- The statements of C that the macros stand for. -/
inductive CAtom (σ α : Type) where
  | act (f : α → σ → σ)
  /-- `_mg_state = n`. -/
  | setState (n : Nat)
  | ret (q : α → σ → QueuePtr × σ)
  /-- `case n:`. -/
  | case (n : Nat)

def CAtom.label : CAtom σ α → Option Nat
  | .case n => some n
  | _ => none

/-- `MG_AWAIT(q)` is `_mg_state = __LINE__; return (q); case __LINE__:`. The three statements stay
together in a sequence and in braces; as the body of an `if` without braces only the first one would
depend on the condition. -/
def expand : Atom σ α → Stmt (CAtom σ α) (Cond σ α)
  | .act f => .atom (.act f)
  | .await line q =>
    .seq (.atom (.setState line)) (.seq (.atom (.ret q)) (.atom (.case line)))
  | .ret q => .atom (.ret q)

/-- `MG_ACTOR_START` is `static int _mg_state = 0; switch(_mg_state) { case 0:`. -/
def ActorFn.code (fn : ActorFn σ α) : Stmt (CAtom σ α) (Cond σ α) :=
  .seq (.atom (.case 0)) (fn.body.subst expand)

/-- Run C code until it returns: the result, and `_mg_state` and the memory then. The fuel bounds
the number of steps. -/
def runCode : Nat → α → Stack (CAtom σ α) (Cond σ α) → Nat × σ → Option (QueuePtr × Nat × σ)
  | 0, _, _, _ => none
  | n + 1, arg, k, (state, m) =>
    match next k with
    -- `MG_ACTOR_END` is `} return NULL`.
    | .done => some (.null, state, m)
    | .move k => runCode n arg k (state, m)
    | .test c k k' => runCode n arg (if (c arg m).1 then k else k') (state, (c arg m).2)
    | .atom (.act f) k => runCode n arg k (state, f arg m)
    | .atom (.setState line) k => runCode n arg k (line, m)
    | .atom (.ret q) _ => some ((q arg m).1, state, (q arg m).2)
    | .atom (.case _) k => runCode n arg k (state, m)

/-- A call of the function. -/
def ActorFn.call (fn : ActorFn σ α) (n : Nat) (arg : α) (s : Nat × σ) :
    Option (QueuePtr × Nat × σ) :=
  match fn.code.enter CAtom.label s.1 with
  | some k => runCode n arg k s
  | none => some (.null, s)

/-- Run the coroutine until it awaits or returns: the result, where the next call goes on, and the
memory. A return other than of an `MG_AWAIT` leaves where the next call goes on as it was. -/
def runCoroutine : Nat → α → Stack (Atom σ α) (Cond σ α) → Stack (Atom σ α) (Cond σ α) × σ →
    Option (QueuePtr × Stack (Atom σ α) (Cond σ α) × σ)
  | 0, _, _, _ => none
  | n + 1, arg, k, (resume, m) =>
    match next k with
    | .done => some (.null, resume, m)
    | .move k => runCoroutine n arg k (resume, m)
    | .test c k k' => runCoroutine n arg (if (c arg m).1 then k else k') (resume, (c arg m).2)
    | .atom (.act f) k => runCoroutine n arg k (resume, f arg m)
    | .atom (.await _ q) k => some ((q arg m).1, k, (q arg m).2)
    | .atom (.ret q) _ => some ((q arg m).1, resume, (q arg m).2)

/-- Call the coroutine. -/
def resume (n : Nat) (arg : α) (s : Stack (Atom σ α) (Cond σ α) × σ) :
    Option (QueuePtr × Stack (Atom σ α) (Cond σ α) × σ) :=
  runCoroutine n arg s.1 s

/-- Calls one after another, each with its arguments and after a change of the memory by others: the
result of each call, and the memory it left. -/
def calls {ρ : Type} (call : α → ρ × σ → Option (QueuePtr × ρ × σ)) :
    List (α × (σ → σ)) → ρ × σ → Option (List (QueuePtr × σ))
  | [], _ => some []
  | (arg, env) :: inputs, (r, m) =>
    match call arg (r, env m) with
    | some (q, r, m) => (calls call inputs (r, m)).map ((q, m) :: ·)
    | none => none

/-- The frames of the code of a coroutine. -/
abbrev compile (k : Stack (Atom σ α) (Cond σ α)) : Stack (CAtom σ α) (Cond σ α) :=
  k.map (Frame.subst expand)

theorem subset_ite {k k' : Stack (Atom σ α) (Cond σ α)}
    {es : List (Nat × Stack (Atom σ α) (Cond σ α))} {b : Bool}
    (hk : Structured.entries Atom.line k ⊆ es) (hk' : Structured.entries Atom.line k' ⊆ es) :
    Structured.entries Atom.line (if b then k else k') ⊆ es := by
  cases b with
  | true => exact hk
  | false => exact hk'

theorem entries_expand (a : Atom σ α) (k : Stack (CAtom σ α) (Cond σ α)) :
    (expand a).entries CAtom.label k = a.line.toList.map fun l => (l, k) := by
  cases a <;> rfl

namespace ActorFn

variable (fn : ActorFn σ α)

/-- `_mg_state` is where the coroutine goes on. -/
def Resumes (state : Nat) (k : Stack (Atom σ α) (Cond σ α)) : Prop :=
  fn.code.enter CAtom.label state = some (compile k) ∧
    Structured.entries Atom.line k ⊆ fn.body.entries Atom.line []

theorem entries_code : fn.code.entries CAtom.label [] =
    (0, [.todo (fn.body.subst expand)]) ::
      (fn.body.entries Atom.line []).map (Prod.map id compile) := by
  exact congrArg (_ :: ·) (Stmt.entries_subst entries_expand fn.body [])

theorem labels_code : (fn.code.labels CAtom.label).Nodup := by
  rw [Stmt.labels, entries_code, List.map_cons, List.map_map, List.nodup_cons]
  exact ⟨fn.lines_pos, fn.lines_nodup⟩

/-- At first, the function is entered at its start. -/
theorem resumes_zero : fn.Resumes 0 [.todo fn.body] := by
  refine ⟨Stmt.enter_of_mem fn.labels_code ?_, ?_⟩
  · rw [entries_code]
    exact List.mem_cons_self
  · simp [Structured.entries]

variable {fn}

/-- After an `MG_AWAIT`, it is entered behind it. -/
theorem resumes_await {line : Nat} {k : Stack (Atom σ α) (Cond σ α)}
    (hline : (line, k) ∈ fn.body.entries Atom.line [])
    (hk : Structured.entries Atom.line k ⊆ fn.body.entries Atom.line []) : fn.Resumes line k := by
  refine ⟨Stmt.enter_of_mem fn.labels_code ?_, hk⟩
  rw [entries_code]
  exact List.mem_cons_of_mem _ (List.mem_map.mpr ⟨_, hline, rfl⟩)

/-- The code does what the coroutine does, and `MG_AWAIT` takes three steps more. -/
theorem runCode_of_runCoroutine {n : Nat} {arg : α} {k r r' : Stack (Atom σ α) (Cond σ α)}
    {state : Nat} {m m' : σ} {q : QueuePtr} (hr : fn.Resumes state r)
    (hk : Structured.entries Atom.line k ⊆ fn.body.entries Atom.line [])
    (hrun : runCoroutine n arg k (r, m) = some (q, r', m')) :
    ∃ state', runCode (n + 3) arg (compile k) (state, m) = some (q, state', m') ∧
      fn.Resumes state' r' := by
  induction n generalizing k m with
  | zero => cases hrun
  | succ n ih =>
    have hnext := next_map_subst expand k
    have hentries := @entries_next _ _ _ Atom.line k
    rw [runCoroutine] at hrun
    rw [show n + 1 + 3 = (n + 3) + 1 from rfl, runCode]
    cases h : next k with
    | done =>
      rw [h] at hnext hrun
      cases hrun
      exact ⟨state, by rw [hnext], hr⟩
    | move k₁ =>
      rw [h] at hnext hentries hrun
      rw [hnext]
      exact ih (List.Subset.trans hentries hk) hrun
    | test c k₁ k₂ =>
      rw [h] at hnext hentries hrun
      rw [hnext]
      have hk₁ := List.Subset.trans hentries.1 hk
      have hk₂ := List.Subset.trans hentries.2 hk
      have hcode := ih (subset_ite hk₁ hk₂) hrun
      rwa [compile, apply_ite (List.map _)] at hcode
    | atom a k₁ =>
      rw [h] at hnext hentries hrun
      have hk₁ := List.Subset.trans hentries.1 hk
      cases a with
      | act f =>
        rw [compile, hnext]
        exact ih hk₁ hrun
      | ret ret =>
        rw [compile, hnext]
        cases hrun
        exact ⟨state, rfl, hr⟩
      | await line q =>
        rw [compile, hnext]
        cases hrun
        exact ⟨line, rfl, resumes_await (hk (hentries.2 line rfl)) hk₁⟩

/-- `MG_AWAIT` sets the line and returns. -/
theorem runCode_await {n line : Nat} {arg : α} {k : Stack (CAtom σ α) (Cond σ α)}
    {s : Nat × σ} {q : α → σ → QueuePtr × σ} {out : QueuePtr × Nat × σ}
    (hrun : runCode n arg (.todo (expand (.await line q)) :: k) s = some out) :
    out = ((q arg s.2).1, line, (q arg s.2).2) := by
  rcases n with _ | _ | _ | _ | n <;> cases hrun
  rfl

/-- The code does nothing that the coroutine does not. -/
theorem runCoroutine_of_runCode {n : Nat} {arg : α} {k r : Stack (Atom σ α) (Cond σ α)}
    {state state' : Nat} {m m' : σ} {q : QueuePtr} (hr : fn.Resumes state r)
    (hk : Structured.entries Atom.line k ⊆ fn.body.entries Atom.line [])
    (hrun : runCode n arg (compile k) (state, m) = some (q, state', m')) :
    ∃ r', runCoroutine n arg k (r, m) = some (q, r', m') ∧ fn.Resumes state' r' := by
  induction n generalizing k m with
  | zero => cases hrun
  | succ n ih =>
    have hnext := next_map_subst expand k
    have hentries := @entries_next _ _ _ Atom.line k
    rw [runCode] at hrun
    rw [runCoroutine]
    cases h : next k with
    | done =>
      rw [h] at hnext
      rw [hnext] at hrun
      cases hrun
      exact ⟨r, rfl, hr⟩
    | move k₁ =>
      rw [h] at hnext hentries
      rw [hnext] at hrun
      exact ih (List.Subset.trans hentries hk) hrun
    | test c k₁ k₂ =>
      rw [h] at hnext hentries
      rw [hnext] at hrun
      refine ih (subset_ite (List.Subset.trans hentries.1 hk) (List.Subset.trans hentries.2 hk)) ?_
      rwa [compile, apply_ite (List.map _)]
    | atom a k₁ =>
      rw [h] at hnext hentries
      have hk₁ := List.Subset.trans hentries.1 hk
      cases a with
      | act f =>
        rw [compile, hnext] at hrun
        exact ih hk₁ hrun
      | ret ret =>
        rw [compile, hnext] at hrun
        cases hrun
        exact ⟨r, rfl, hr⟩
      | await line ret =>
        rw [compile, hnext] at hrun
        have heq := runCode_await (n := n + 1) (k := compile k₁) (s := (state, m)) hrun
        cases heq
        exact ⟨k₁, rfl, resumes_await (hk (hentries.2 _ rfl)) hk₁⟩

variable (fn)

theorem call_eq {n : Nat} {arg : α} {r : Stack (Atom σ α) (Cond σ α)} {state : Nat} {m : σ}
    (hr : fn.Resumes state r) :
    fn.call n arg (state, m) = runCode n arg (compile r) (state, m) := by
  rw [call, hr.1]

/-- The calls of the coroutine and those of the code, one by one. -/
theorem calls_of_resume {n : Nat} {inputs : List (α × (σ → σ))} {r : Stack (Atom σ α) (Cond σ α)}
    {state : Nat} {m : σ} {out : List (QueuePtr × σ)} (hr : fn.Resumes state r)
    (hcalls : calls (resume n) inputs (r, m) = some out) :
    calls (fn.call (n + 3)) inputs (state, m) = some out := by
  induction inputs generalizing r state m out with
  | nil => exact hcalls
  | cons input inputs ih =>
    obtain ⟨arg, env⟩ := input
    rw [calls] at hcalls ⊢
    rw [resume] at hcalls
    split at hcalls
    · rename_i q r' m' hrun
      obtain ⟨outs, hrest, rfl⟩ := Option.map_eq_some_iff.mp hcalls
      obtain ⟨state', hcode, hr'⟩ := runCode_of_runCoroutine hr hr.2 hrun
      rw [fn.call_eq hr, hcode]
      simp [ih hr' hrest]
    · cases hcalls

theorem resume_of_calls {n : Nat} {inputs : List (α × (σ → σ))} {r : Stack (Atom σ α) (Cond σ α)}
    {state : Nat} {m : σ} {out : List (QueuePtr × σ)} (hr : fn.Resumes state r)
    (hcalls : calls (fn.call n) inputs (state, m) = some out) :
    calls (resume n) inputs (r, m) = some out := by
  induction inputs generalizing r state m out with
  | nil => exact hcalls
  | cons input inputs ih =>
    obtain ⟨arg, env⟩ := input
    rw [calls] at hcalls ⊢
    rw [fn.call_eq hr] at hcalls
    split at hcalls
    · rename_i q state' m' hrun
      obtain ⟨outs, hrest, rfl⟩ := Option.map_eq_some_iff.mp hcalls
      obtain ⟨r', hco, hr'⟩ := runCoroutine_of_runCode hr hr.2 hrun
      rw [resume, hco]
      simp [ih hr' hrest]
    · cases hcalls

/-- The macros preserve the meaning of an actor's function, of `while` loops and branches with each
`MG_AWAIT` in a sequence or in braces. Called any number of times, with any arguments, by one actor
or by several, and with any changes of the memory between two calls, the `switch` over the static
variable returns what the coroutine returns and leaves the memory as the coroutine does, where both
return. -/
theorem protothread_exact (inputs : List (α × (σ → σ))) (m : σ) (out : List (QueuePtr × σ)) :
    (∃ n, calls (fn.call n) inputs (0, m) = some out) ↔
      ∃ n, calls (resume n) inputs ([.todo fn.body], m) = some out := by
  constructor
  · rintro ⟨n, hcalls⟩
    exact ⟨n, fn.resume_of_calls fn.resumes_zero hcalls⟩
  · rintro ⟨n, hcalls⟩
    exact ⟨n + 3, fn.calls_of_resume fn.resumes_zero hcalls⟩

end ActorFn

/-- An actor that notes its start, and after it every second message. -/
def notingActor (q : QueuePtr) : ActorFn (Bool × Bool) Unit where
  body := .loop (fun _ m => (true, m))
    (.seq (.atom (.act fun _ m => (true, m.2)))
      (.seq (.atom (.await 1 fun _ m => (q, m)))
        (.seq (.atom (.act fun _ m => (m.1, true))) (.atom (.await 2 fun _ m => (q, m))))))
  lines_nodup := by simp [Stmt.labels, Stmt.entries, Atom.line]
  lines_pos := by simp [Stmt.labels, Stmt.entries, Atom.line]

example : calls ((notingActor (.queue (.queue 0))).call 20) [((), id), ((), id)]
    (0, (false, false)) =
      some [(.queue (.queue 0), (true, false)), (.queue (.queue 0), (true, true))] := by
  decide

end Magnesium.Protothread
