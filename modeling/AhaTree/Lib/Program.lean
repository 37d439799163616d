import Mathlib.Logic.Function.Basic
import Mathlib.Algebra.BigOperators.Group.List.Basic
import Mathlib.Data.Int.Basic
import Mathlib.Algebra.Ring.Int.Defs

/-!
# Programs that ask their surroundings

A program is a tree of questions: it asks, and goes on with the answer.  What
the questions mean is left open.  A handler answers them from a state and makes
the program a function; without one, `After` collects all ways in which the
surroundings may answer, and `Interleaved` those in which several programs take
turns.
-/

namespace Lib

inductive Program (Ask : Type) (Answer : Ask → Type) (α : Type) : Type where
  | done (result : α)
  | ask (question : Ask) (next : Answer question → Program Ask Answer α)

namespace Program

variable {Ask : Type} {Answer : Ask → Type} {α β : Type}

protected def bind (program : Program Ask Answer α) (rest : α → Program Ask Answer β) :
    Program Ask Answer β :=
  match program with
  | .done result => rest result
  | .ask question next => .ask question (fun answer => (next answer).bind rest)

instance : Monad (Program Ask Answer) where
  pure := .done
  bind := Program.bind

/-- Ask one question. -/
def perform (question : Ask) : Program Ask Answer (Answer question) :=
  .ask question .done

@[simp] theorem pure_eq (result : α) :
    (pure result : Program Ask Answer α) = .done result := rfl

@[simp] theorem done_bind (result : α) (rest : α → Program Ask Answer β) :
    (Program.done result : Program Ask Answer α) >>= rest = rest result := rfl

@[simp] theorem ask_bind (question : Ask) (next : Answer question → Program Ask Answer α)
    (rest : α → Program Ask Answer β) :
    Program.ask question next >>= rest =
      .ask question (fun answer => next answer >>= rest) := rfl

@[simp] theorem perform_bind (question : Ask)
    (rest : Answer question → Program Ask Answer β) :
    perform question >>= rest = .ask question rest := rfl

theorem bind_assoc {γ : Type} (program : Program Ask Answer α)
    (middle : α → Program Ask Answer β) (rest : β → Program Ask Answer γ) :
    (program >>= middle) >>= rest = program >>= fun result => middle result >>= rest := by
  induction program with
  | done result => rfl
  | ask question next ih =>
      simp only [ask_bind, ih]

/-! ## Running a program with a handler -/

section Exec

variable {σ ε : Type} (handle : (question : Ask) → σ → Except ε (Answer question × σ))

def exec : Program Ask Answer α → σ → Except ε (α × σ)
  | .done result, state => .ok (result, state)
  | .ask question next, state =>
      match handle question state with
      | .ok (answer, after) => exec (next answer) after
      | .error failure => .error failure

@[simp] theorem exec_done (result : α) (state : σ) :
    exec handle (.done result : Program Ask Answer α) state = .ok (result, state) := rfl

theorem exec_ask (question : Ask) (next : Answer question → Program Ask Answer α)
    (state : σ) :
    exec handle (.ask question next) state =
      match handle question state with
      | .ok (answer, after) => exec handle (next answer) after
      | .error failure => .error failure := by
  rw [exec]

theorem exec_bind (program : Program Ask Answer α) (rest : α → Program Ask Answer β)
    (state : σ) :
    exec handle (program >>= rest) state =
      match exec handle program state with
      | .ok (result, after) => exec handle (rest result) after
      | .error failure => .error failure := by
  induction program generalizing state with
  | done result => rfl
  | ask question next ih =>
      rw [ask_bind, exec_ask, exec_ask]
      cases handle question state with
      | error failure => rfl
      | ok answered =>
          obtain ⟨answer, after⟩ := answered
          exact ih answer after

variable {handle}

theorem exec_bind_ok {program : Program Ask Answer α} {rest : α → Program Ask Answer β}
    {state after : σ} {result : α} (ran : exec handle program state = .ok (result, after)) :
    exec handle (program >>= rest) state = exec handle (rest result) after := by
  rw [exec_bind, ran]

theorem exec_bind_error {program : Program Ask Answer α} {rest : α → Program Ask Answer β}
    {state : σ} {failure : ε} (failed : exec handle program state = .error failure) :
    exec handle (program >>= rest) state = .error failure := by
  rw [exec_bind, failed]

end Exec

/-! ## All answers -/

/-- One question with its answer. -/
abbrev Event (Ask : Type) (Answer : Ask → Type) := (question : Ask) × Answer question

/-- After the events in `log` the program goes on as `rest`. -/
inductive After : Program Ask Answer α → List (Event Ask Answer) →
    Program Ask Answer α → Prop where
  | start (program : Program Ask Answer α) : After program [] program
  | next {question : Ask} {next : Answer question → Program Ask Answer α}
      (answer : Answer question) {log : List (Event Ask Answer)}
      {rest : Program Ask Answer α} :
      After (next answer) log rest →
      After (.ask question next) (⟨question, answer⟩ :: log) rest

/-- The events with which a program ends. -/
def Ends (program : Program Ask Answer α) (log : List (Event Ask Answer))
    (result : α) : Prop :=
  After program log (.done result)

theorem Ends.done_iff {result other : α} {log : List (Event Ask Answer)} :
    Ends (.done result : Program Ask Answer α) log other ↔ log = [] ∧ result = other := by
  constructor
  · intro ended
    cases ended
    exact ⟨rfl, rfl⟩
  · rintro ⟨rfl, rfl⟩
    exact .start _

theorem Ends.ask_iff {question : Ask} {next : Answer question → Program Ask Answer α}
    {log : List (Event Ask Answer)} {result : α} :
    Ends (.ask question next) log result ↔
      ∃ answer later, log = ⟨question, answer⟩ :: later ∧ Ends (next answer) later result := by
  constructor
  · intro ended
    cases ended with
    | next answer later => exact ⟨answer, _, rfl, later⟩
  · rintro ⟨answer, later, rfl, ended⟩
    exact .next answer ended

theorem Ends.bind_iff {program : Program Ask Answer α} {rest : α → Program Ask Answer β}
    {log : List (Event Ask Answer)} {result : β} :
    Ends (program >>= rest) log result ↔
      ∃ first middle later, log = first ++ later ∧ Ends program first middle ∧
        Ends (rest middle) later result := by
  induction program generalizing log with
  | done middle =>
      rw [done_bind]
      constructor
      · intro ended
        exact ⟨[], middle, log, rfl, Ends.done_iff.mpr ⟨rfl, rfl⟩, ended⟩
      · rintro ⟨first, other, later, rfl, isDone, ended⟩
        obtain ⟨rfl, rfl⟩ := Ends.done_iff.mp isDone
        exact ended
  | ask question next ih =>
      rw [ask_bind, Ends.ask_iff]
      constructor
      · rintro ⟨answer, later, rfl, ended⟩
        obtain ⟨first, middle, last, rfl, begun, ended⟩ := (ih answer).mp ended
        exact ⟨⟨question, answer⟩ :: first, middle, last, rfl,
          Ends.ask_iff.mpr ⟨answer, first, rfl, begun⟩, ended⟩
      · rintro ⟨first, middle, last, rfl, begun, ended⟩
        obtain ⟨answer, later, rfl, going⟩ := Ends.ask_iff.mp begun
        exact ⟨answer, later ++ last, rfl, (ih answer).mpr ⟨later, middle, last, rfl,
          going, ended⟩⟩

theorem After.snoc {program rest : Program Ask Answer α} {log : List (Event Ask Answer)}
    (after : After program log rest) {question : Ask}
    {next : Answer question → Program Ask Answer α} (asks : rest = .ask question next)
    (answer : Answer question) :
    After program (log ++ [⟨question, answer⟩]) (next answer) := by
  induction after with
  | start program =>
      subst asks
      exact .next answer (.start _)
  | next earlier _ ih => exact .next earlier (ih asks)

theorem exists_ends_of_exec {σ ε : Type}
    {handle : (question : Ask) → σ → Except ε (Answer question × σ)}
    {program : Program Ask Answer α} {state after : σ} {result : α}
    (ran : exec handle program state = .ok (result, after)) :
    ∃ log, Ends program log result := by
  induction program generalizing state with
  | done other =>
      cases ran
      exact ⟨[], .start _⟩
  | ask question next ih =>
      rw [exec_ask] at ran
      cases answered : handle question state with
      | error failure =>
          rw [answered] at ran
          cases ran
      | ok given =>
          rw [answered] at ran
          obtain ⟨log, ended⟩ := ih given.1 ran
          exact ⟨⟨question, given.1⟩ :: log, .next given.1 ended⟩

/-- The events of a run with a handler, with its result and the last state. -/
def trace {σ ε : Type} (handle : (question : Ask) → σ → Except ε (Answer question × σ)) :
    Program Ask Answer α → σ → Except ε (List (Event Ask Answer) × α × σ)
  | .done result, state => .ok ([], result, state)
  | .ask question next, state =>
      match handle question state with
      | .error failure => .error failure
      | .ok (answer, after) =>
          match trace handle (next answer) after with
          | .error failure => .error failure
          | .ok (log, result, last) => .ok (⟨question, answer⟩ :: log, result, last)

theorem ends_of_trace {σ ε : Type}
    {handle : (question : Ask) → σ → Except ε (Answer question × σ)}
    {program : Program Ask Answer α} {state last : σ} {log : List (Event Ask Answer)} {result : α}
    (traced : trace handle program state = .ok (log, result, last)) :
    Ends program log result := by
  induction program generalizing state log with
  | done other =>
      cases traced
      exact .start _
  | ask question next ih =>
      rw [trace] at traced
      cases answered : handle question state with
      | error failure =>
          rw [answered] at traced
          cases traced
      | ok given =>
          simp only [answered] at traced
          cases later : trace handle (next given.1) given.2 with
          | error failure =>
              rw [later] at traced
              cases traced
          | ok rest =>
              rw [later] at traced
              cases traced
              exact .next given.1 (ih given.1 later)

/-! ## What a program never asks -/

/-- The program asks nothing else, whatever the answers are. -/
def Only (allowed : Ask → Prop) : Program Ask Answer α → Prop
  | .done _ => True
  | .ask question next => allowed question ∧ ∀ answer, Only allowed (next answer)

section Only

variable {allowed : Ask → Prop}

theorem Only.bind {program : Program Ask Answer α} {rest : α → Program Ask Answer β}
    (first : Only allowed program) (later : ∀ result, Only allowed (rest result)) :
    Only allowed (program >>= rest) := by
  induction program with
  | done result => exact later result
  | ask question next ih => exact ⟨first.1, fun answer => ih answer (first.2 answer)⟩

theorem Only.after {program rest : Program Ask Answer α} {log : List (Event Ask Answer)}
    (only : Only allowed program) (after : After program log rest) :
    ∀ event ∈ log, allowed event.1 := by
  induction after with
  | start program => exact fun event member => absurd member List.not_mem_nil
  | next answer _ ih =>
      intro event member
      rcases List.mem_cons.mp member with rfl | later
      · exact only.1
      · exact ih (only.2 answer) event later

end Only

/-! ## Accounts

Every event changes an account by its weight; a program nets what its events
change together. -/

section Accounts

variable {κ : Type} (weight : Event Ask Answer → κ → ℤ)

def net (log : List (Event Ask Answer)) (account : κ) : ℤ :=
  (log.map (fun event => weight event account)).sum

/-- Whatever the answers are, the program changes the accounts by `gain`. -/
def Nets (program : Program Ask Answer α) (gain : α → κ → ℤ) : Prop :=
  ∀ log result, Ends program log result → ∀ account, net weight log account = gain result account

variable {weight}

theorem Nets.congr {program : Program Ask Answer α} {gain other : α → κ → ℤ}
    (nets : Nets weight program gain)
    (same : ∀ result account, gain result account = other result account) :
    Nets weight program other := by
  intro log result ended account
  rw [nets log result ended account, same]

theorem nets_done {result : α} {gain : α → κ → ℤ}
    (nothing : ∀ account, gain result account = 0) :
    Nets weight (.done result : Program Ask Answer α) gain := by
  intro log other ended account
  obtain ⟨rfl, rfl⟩ := Ends.done_iff.mp ended
  exact (nothing account).symm

theorem nets_ask {question : Ask} {next : Answer question → Program Ask Answer α}
    {gain : α → κ → ℤ}
    (rest : ∀ answer, Nets weight (next answer)
      (fun result account => gain result account - weight ⟨question, answer⟩ account)) :
    Nets weight (.ask question next) gain := by
  intro log result ended account
  obtain ⟨answer, later, rfl, going⟩ := Ends.ask_iff.mp ended
  have later := rest answer later result going account
  rw [net] at later ⊢
  rw [List.map_cons, List.sum_cons, later]
  exact add_sub_cancel _ _

theorem nets_bind {program : Program Ask Answer α} {rest : α → Program Ask Answer β}
    {first : α → κ → ℤ} {gain : β → κ → ℤ} (begins : Nets weight program first)
    (goesOn : ∀ middle, Nets weight (rest middle)
      (fun result account => gain result account - first middle account)) :
    Nets weight (program >>= rest) gain := by
  intro log result ended account
  obtain ⟨early, middle, later, rfl, begun, going⟩ := Ends.bind_iff.mp ended
  have early := begins early middle begun account
  have later := goesOn middle later result going account
  rw [net] at early later ⊢
  rw [List.map_append, List.sum_append, early, later]
  exact add_sub_cancel _ _

/-- A question that leaves all accounts as they are. -/
theorem nets_quiet {question : Ask} {next : Answer question → Program Ask Answer α}
    {gain : α → κ → ℤ} (quiet : ∀ answer account, weight ⟨question, answer⟩ account = 0)
    (later : ∀ answer, Nets weight (next answer) gain) :
    Nets weight (.ask question next) gain := by
  apply nets_ask
  intro answer
  apply (later answer).congr
  intro result account
  rw [quiet, sub_zero]

/-- A program that settles its accounts may stand in front of any other. -/
theorem nets_settled {program : Program Ask Answer α} {rest : α → Program Ask Answer β}
    {gain : β → κ → ℤ} (settled : Nets weight program (fun _ _ => 0))
    (later : ∀ result, Nets weight (rest result) gain) :
    Nets weight (program >>= rest) gain := by
  apply nets_bind settled
  intro middle
  apply (later middle).congr
  intro result account
  exact (sub_zero _).symm

end Accounts

/-! ## Several programs in turns -/

section Interleaving

variable {ι : Type} [DecidableEq ι]

/-- Any of the programs takes the next step, whatever the answer. -/
inductive Interleaved (programs : ι → Program Ask Answer α) :
    List (ι × Event Ask Answer) → (ι → Program Ask Answer α) → Prop where
  | start : Interleaved programs [] programs
  | step {log : List (ι × Event Ask Answer)} {now : ι → Program Ask Answer α}
      (turn : ι) {question : Ask} {next : Answer question → Program Ask Answer α}
      (answer : Answer question) :
      Interleaved programs log now → now turn = .ask question next →
      Interleaved programs (log ++ [(turn, ⟨question, answer⟩)])
        (Function.update now turn (next answer))

/-- The events of one of the programs. -/
def own (turn : ι) (log : List (ι × Event Ask Answer)) : List (Event Ask Answer) :=
  (log.filter (fun event => event.1 = turn)).map Prod.snd

/-- Each of the programs sees its own events only. -/
theorem Interleaved.after {programs now : ι → Program Ask Answer α}
    {log : List (ι × Event Ask Answer)} (interleaved : Interleaved programs log now)
    (turn : ι) : After (programs turn) (own turn log) (now turn) := by
  induction interleaved with
  | start => exact .start _
  | step other answer _ asks ih =>
      by_cases same : other = turn
      · subst same
        rw [Function.update_self]
        simpa [own, List.filter_append] using ih.snoc asks answer
      · have others : turn ≠ other := fun equal => same equal.symm
        rw [Function.update_of_ne others]
        simpa [own, List.filter_append, same] using ih

/-- One of the programs takes its steps without the others. -/
theorem Interleaved.alone {programs now : ι → Program Ask Answer α}
    {earlier : List (ι × Event Ask Answer)} (interleaved : Interleaved programs earlier now)
    (turn : ι) {log : List (Event Ask Answer)} {rest : Program Ask Answer α}
    (after : After (now turn) log rest) :
    Interleaved programs (earlier ++ log.map (fun event => (turn, event)))
      (Function.update now turn rest) := by
  generalize isNow : now turn = program at after
  induction after generalizing earlier now with
  | start program =>
      rw [← isNow, Function.update_eq_self]
      simpa using interleaved
  | next answer _ ih =>
      have stepped := ih (interleaved.step turn answer isNow) (Function.update_self ..)
      rw [Function.update_idem] at stepped
      simpa using stepped

@[simp] theorem own_map_same (turn : ι) (log : List (Event Ask Answer)) :
    own turn (log.map (fun event => (turn, event))) = log := by
  simp [own, List.filter_map, Function.comp_def]

@[simp] theorem own_append (turn : ι) (first second : List (ι × Event Ask Answer)) :
    own turn (first ++ second) = own turn first ++ own turn second := by
  simp [own]

theorem own_map_other {turn other : ι} (different : other ≠ turn)
    (log : List (Event Ask Answer)) :
    own turn (log.map (fun event => (other, event))) = [] := by
  simp [own, List.filter_map, Function.comp_def, different]

end Interleaving

end Program

end Lib
