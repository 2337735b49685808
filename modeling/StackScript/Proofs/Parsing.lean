import StackScript.Proofs.Grammar
import StackScript.Proofs.Writing

/-!
How actions of the compiler read tokens. An action reads some strings: where it succeeds without complaint, the tokens it
has passed make one of them, and where such a string stands in front of it, it passes that string. It may still fail on what
the string means or on its size; such a complaint is then the first one, whatever is compiled afterwards.
-/

namespace StackScript

variable {kind : Kind} {rest string : List Kind}

namespace Cursor

def kinds (cursor : Cursor) : List Kind :=
  (cursor.tokens.toList.drop cursor.position).map Token.kind

variable (cursor : Cursor)

theorem kinds_eq : ∃ tail, cursor.kinds = cursor.peek.kind :: tail := by
  have inside : cursor.position < cursor.tokens.toList.length := by simpa using cursor.inside
  refine ⟨(cursor.tokens.toList.drop (cursor.position + 1)).map Token.kind, ?_⟩
  rw [kinds, List.drop_eq_getElem_cons inside, List.map_cons]
  rfl

theorem kinds_length : cursor.kinds.length = cursor.remaining + 1 := by
  have inside := cursor.inside
  simp [kinds, remaining]
  omega

variable {cursor} {tail : List Kind}

theorem kinds_advance (more : cursor.peek.kind ≠ .eof) : cursor.kinds = cursor.peek.kind :: cursor.advance.kinds := by
  have inside : cursor.position < cursor.tokens.toList.length := by simpa using cursor.inside
  have moves : cursor.isAtEnd = false := by simpa [isAtEnd] using more
  rw [kinds, List.drop_eq_getElem_cons inside, List.map_cons]
  simp [kinds, advance, moves, peek]

theorem peek_of_kinds (front : cursor.kinds = kind :: tail) : cursor.peek.kind = kind := by
  obtain ⟨tail', same⟩ := cursor.kinds_eq
  rw [front] at same
  exact (List.cons.inj same).1.symm

theorem head?_of_passed {after : Cursor} (passed : cursor.kinds = string ++ after.kinds) :
    (string ++ [after.peek.kind]).head? = some cursor.peek.kind := by
  obtain ⟨tail, starts⟩ := cursor.kinds_eq
  obtain ⟨tail', ends⟩ := after.kinds_eq
  rw [starts, ends] at passed
  cases string with
  | nil | cons first string => exact congrArg some (List.cons.inj passed).1.symm

theorem advance_of_kinds (front : cursor.kinds = kind :: tail) (more : kind ≠ .eof) :
    cursor.advance.kinds = tail := by
  have peeks := peek_of_kinds front
  rw [kinds_advance (peeks ▸ more)] at front
  exact (List.cons.inj front).2

end Cursor

namespace Reading

open Compile Compile.Parse Conduct Grammar

variable {α β : Type} {state after : Compilation} {again : Parse Bool} {complaint : Complaint} {heads : Kind → Bool}
  {bound : Nat} {body : Parse Unit} {takes : List Kind → List Kind → Prop} {gives : List Kind → Kind → Prop} {value : α}

/-- The first complaint is not about the shape of the text. -/
def Spoiled (errors : List CompileError) : Prop :=
  ∃ error ∈ errors.head?, error.what.isSyntactic = false

theorem Spoiled.of_prefix {errors later : List CompileError} (spoiled : Spoiled errors) (kept : errors <+: later) :
    Spoiled later := by
  obtain ⟨error, first, context⟩ := spoiled
  obtain ⟨more, rfl⟩ := kept
  refine ⟨error, ?_, context⟩
  rw [List.head?_append, Option.mem_def.mp first]
  rfl

def resultState : EStateM.Result CompileError Compilation α → Compilation
  | .ok _ after => after
  | .error _ after => after

/-- Complaints are only ever added. -/
def adding : Conduct CompileError Compilation :=
  .alike (fun before after => before.errors.toList <+: after.errors.toList) (fun _ => List.prefix_refl _) List.IsPrefix.trans

abbrev Keeps (action : Parse α) : Prop := adding.Obeys action

/-- The action has passed the tokens up to `rest`, or something is wrong with what they mean. -/
inductive Fine (rest : List Kind) : EStateM.Result CompileError Compilation α → Prop where
  | done {value : α} {after : Compilation} (clean : after.errors = #[]) (passed : after.cursor.kinds = rest) :
      Fine rest (.ok value after)
  | spoiled {value : α} {after : Compilation} (noted : Spoiled after.errors.toList) : Fine rest (.ok value after)
  | failed {error : CompileError} {after : Compilation} (noted : Spoiled (after.errors.toList ++ [error])) :
      Fine rest (.error error after)

/-- What an action reads: the strings that it can pass in front of other tokens, and those that it has passed, in front of
what kind of token. -/
structure Reads (action : Parse α) (takes : List Kind → List Kind → Prop) (gives : List Kind → Kind → Prop) : Prop where
  keeps : Keeps action
  sound : ∀ {state : Compilation} {value : α} {after : Compilation}, action state = .ok value after → after.errors = #[] →
    ∃ string, state.cursor.kinds = string ++ after.cursor.kinds ∧ gives string after.cursor.peek.kind
  complete : ∀ {state : Compilation} {string rest : List Kind}, state.errors = #[] → state.cursor.kinds = string ++ rest →
    takes string rest → Fine rest (action state)

/-- What actions do that pass no token, and fail on meaning or size only. -/
def silence : Conduct CompileError Compilation where
  goes before after := after.cursor = before.cursor ∧ after.errors = before.errors
  fails before error after := error.what.isSyntactic = false ∧ after.errors = before.errors
  refl _ := ⟨rfl, rfl⟩
  trans one two := ⟨two.1.trans one.1, two.2.trans one.2⟩
  fails_after one two := ⟨two.1, two.2.trans one.2⟩

abbrev Silent (action : Parse α) : Prop := silence.Obeys action

instance : silence.Rescopes where
  toWrites := .of_recode (fun _ meaning => ⟨meaning, rfl⟩) (fun _ _ _ => ⟨rfl, rfl⟩) fun _ =>
    resolveCapture_obeys (fun _ => ⟨rfl, rfl⟩) fun _ meaning => ⟨meaning, rfl⟩
  rescope _ _ _ _ := ⟨rfl, rfl⟩
  reclass _ _ := ⟨rfl, rfl⟩

section Keeping

variable {action : Parse α} {next : α → Parse β}

theorem bind_error {error : CompileError} (failed : action state = .error error after) :
    (action >>= next) state = .error error after := by
  change EStateM.bind action next state = _
  rw [EStateM.bind, failed]

theorem Keeps.clean (keeps : Keeps action) (done : action state = .ok value after) (clean : after.errors = #[]) :
    state.errors = #[] := by
  have kept := keeps state
  rw [done] at kept
  have kept : state.errors.toList <+: after.errors.toList := kept
  simpa [clean] using kept

theorem Keeps.fine (keeps : Keeps action) (spoiled : Spoiled state.errors.toList) : Fine rest (action state) := by
  have kept := keeps state
  cases done : action state with
  | ok value after =>
    rw [done] at kept
    exact .spoiled (spoiled.of_prefix kept)
  | error error after =>
    rw [done] at kept
    exact .failed (spoiled.of_prefix (kept.trans (List.prefix_append _ _)))

theorem Fine.bind {rest' : List Kind} (first : Fine rest (action state)) (keeps : ∀ value, Keeps (next value))
    (second : ∀ value after, after.errors = #[] → after.cursor.kinds = rest → Fine rest' (next value after)) :
    Fine rest' ((action >>= next) state) := by
  cases done : action state with
  | ok value after =>
    rw [bind_eq done]
    rw [done] at first
    cases first with
    | done clean passed => exact second value after clean passed
    | spoiled noted => exact (keeps value).fine noted
  | error error after =>
    rw [bind_error done]
    rw [done] at first
    cases first with
    | failed noted => exact .failed noted

theorem adding_same (same : after.errors = state.errors) : adding.goes state after := by
  change state.errors.toList <+: after.errors.toList
  rw [same]

theorem Silent.keeps (silent : Silent action) : Keeps action :=
  silent.within ⟨fun goes => adding_same goes.2, fun fails => adding_same fails.2⟩

theorem accept_keeps (kind : Kind) : Keeps (accept kind) := by
  intro state
  unfold accept
  split <;> exact List.prefix_refl _

theorem Silent.fine (silent : Silent action) (clean : state.errors = #[]) (front : state.cursor.kinds = rest) :
    Fine rest (action state) := by
  have quiet := silent state
  cases done : action state with
  | ok value after =>
    rw [done] at quiet
    exact .done (quiet.2.trans clean) (quiet.1 ▸ front)
  | error error after =>
    rw [done] at quiet
    refine .failed ⟨error, ?_, quiet.1⟩
    simp [quiet.2, clean]

end Keeping

section Rules

variable {action no : Parse α} {next : α → Parse β} {takes₁ takes₂ : List Kind → List Kind → Prop}
  {gives₁ gives₂ : List Kind → Kind → Prop} {yes : Token → Parse α} {taken : Kind → List Kind → List Kind → Prop}
  {given : Kind → List Kind → Kind → Prop}

theorem Reads.mono (reads : Reads action takes₁ gives₁) (less : ∀ string rest, takes string rest → takes₁ string rest)
    (more : ∀ string kind, gives₁ string kind → gives string kind) : Reads action takes gives := by
  refine ⟨reads.keeps, fun done clean => ?_, fun clean front fits => reads.complete clean front (less _ _ fits)⟩
  obtain ⟨string, front, given⟩ := reads.sound done clean
  exact ⟨string, front, more _ _ given⟩

theorem Reads.bind (one : Reads action takes₁ gives₁) (two : ∀ value, Reads (next value) takes₂ gives₂)
    (splits : ∀ string rest, takes string rest →
      ∃ front back, string = front ++ back ∧ takes₁ front (back ++ rest) ∧ takes₂ back rest)
    (joins : ∀ front back kind middle, (back ++ [kind]).head? = some middle → gives₁ front middle → gives₂ back kind →
      gives (front ++ back) kind) : Reads (action >>= next) takes gives := by
  constructor
  case keeps => exact one.keeps.bind fun value => (two value).keeps
  case sound =>
    intro state result after done clean
    obtain ⟨value, between, first, second⟩ := bind_ok done
    obtain ⟨back, passed, given⟩ := (two value).sound second clean
    obtain ⟨front, passed', given'⟩ := one.sound first ((two value).keeps.clean second clean)
    refine ⟨front ++ back, by rw [passed', passed, List.append_assoc], joins _ _ _ _ ?_ given' given⟩
    exact Cursor.head?_of_passed passed
  case complete =>
    intro state string rest clean front fits
    obtain ⟨first, second, rfl, fits₁, fits₂⟩ := splits string rest fits
    rw [List.append_assoc] at front
    refine (one.complete clean front fits₁).bind (fun value => (two value).keeps) fun value between clean passed => ?_
    exact (two value).complete clean passed fits₂

theorem Reads.after_silent (silent : Silent action) (two : ∀ value, Reads (next value) takes gives) :
    Reads (action >>= next) takes gives := by
  constructor
  case keeps => exact silent.keeps.bind fun value => (two value).keeps
  case sound =>
    intro state result after done clean
    obtain ⟨value, between, first, second⟩ := bind_ok done
    have quiet := silent state
    rw [first] at quiet
    rw [← quiet.1]
    exact (two value).sound second clean
  case complete =>
    intro state string rest clean front fits
    refine (silent.fine clean front).bind (fun value => (two value).keeps) fun value between clean passed => ?_
    exact (two value).complete clean passed fits

theorem Reads.then_silent (one : Reads action takes gives) (silent : ∀ value, Silent (next value)) :
    Reads (action >>= next) takes gives := by
  constructor
  case keeps => exact one.keeps.bind fun value => (silent value).keeps
  case sound =>
    intro state result after done clean
    obtain ⟨value, between, first, second⟩ := bind_ok done
    have quiet := silent value between
    rw [second] at quiet
    rw [quiet.1]
    exact one.sound first (quiet.2.symm.trans clean)
  case complete =>
    intro state string rest clean front fits
    refine (one.complete clean front fits).bind (fun value => (silent value).keeps) fun value between clean passed => ?_
    exact (silent value).fine clean passed

theorem Reads.fail (context : complaint.isSyntactic = false)
    (fails : ∀ state, ∃ error : CompileError, error.what = complaint ∧ action state = .error error state) :
    Reads action takes gives := by
  constructor
  case keeps =>
    intro state
    obtain ⟨error, -, failed⟩ := fails state
    rw [failed]
    exact List.prefix_refl _
  case sound =>
    intro state value after done
    obtain ⟨error, -, failed⟩ := fails state
    cases failed.symm.trans done
  case complete =>
    intro state string rest clean front fits
    obtain ⟨error, rfl, failed⟩ := fails state
    rw [failed]
    refine .failed ⟨error, ?_, context⟩
    simp [clean]

theorem Reads.failBehind (context : complaint.isSyntactic = false) : Reads (Parse.failBehind complaint : Parse α) takes gives :=
  .fail context fun _ => ⟨_, rfl, rfl⟩

theorem Reads.failHere (context : complaint.isSyntactic = false) : Reads (Parse.failHere complaint : Parse α) takes gives :=
  .fail context fun _ => ⟨_, rfl, rfl⟩

theorem Reads.branch (test : Kind → Bool) {yes : Parse α} (one : Reads yes takes₁ gives₁) (two : Reads no takes₂ gives₂)
    (same : ∀ state, action state = if test state.cursor.peek.kind = true then yes state else no state)
    (splits : ∀ string rest kind tail, takes string rest → string ++ rest = kind :: tail →
      if test kind = true then takes₁ string rest else takes₂ string rest)
    (joins : ∀ string kind first, (string ++ [kind]).head? = some first →
      (if test first = true then gives₁ string kind else gives₂ string kind) → gives string kind) :
    Reads action takes gives := by
  constructor
  case keeps =>
    intro state
    rw [same]
    split
    · exact one.keeps state
    · exact two.keeps state
  case sound =>
    intro state value after done clean
    rw [same] at done
    by_cases chosen : test state.cursor.peek.kind = true
    · rw [if_pos chosen] at done
      obtain ⟨string, passed, given⟩ := one.sound done clean
      refine ⟨string, passed, joins _ _ _ (Cursor.head?_of_passed passed) ?_⟩
      rwa [if_pos chosen]
    · rw [if_neg chosen] at done
      obtain ⟨string, passed, given⟩ := two.sound done clean
      refine ⟨string, passed, joins _ _ _ (Cursor.head?_of_passed passed) ?_⟩
      rwa [if_neg chosen]
  case complete =>
    intro state string rest clean front fits
    rw [same]
    obtain ⟨tail, start⟩ := state.cursor.kinds_eq
    have fits := splits string rest _ tail fits (front ▸ start)
    split
    · next chosen => exact one.complete clean front (by rwa [if_pos chosen] at fits)
    · next chosen => exact two.complete clean front (by rwa [if_neg chosen] at fits)

theorem Reads.passing (test : Kind → Bool) (noEnd : test .eof = false)
    (one : ∀ (token : Token) kind, token.kind = kind → test kind = true → Reads (yes token) (taken kind) (given kind))
    (two : Reads no takes₂ gives₂)
    (same : ∀ state : Compilation, action state =
      if test state.cursor.peek.kind = true then yes state.cursor.peek { state with cursor := state.cursor.advance }
      else no state)
    (splits : ∀ string rest kind tail, takes string rest → string ++ rest = kind :: tail →
      if test kind = true then ∃ further, string = kind :: further ∧ taken kind further rest else takes₂ string rest)
    (joins : ∀ first string kind, test first = true → given first string kind → gives (first :: string) kind)
    (joins' : ∀ string kind first, (string ++ [kind]).head? = some first → test first = false → gives₂ string kind →
      gives string kind) : Reads action takes gives := by
  have real {kind : Kind} (chosen : test kind = true) : kind ≠ .eof := by
    rintro rfl
    rw [noEnd] at chosen
    cases chosen
  constructor
  case keeps =>
    intro state
    rw [same]
    split
    · next chosen => exact (one _ _ rfl chosen).keeps { state with cursor := state.cursor.advance }
    · exact two.keeps state
  case sound =>
    intro state value after done clean
    rw [same] at done
    by_cases chosen : test state.cursor.peek.kind = true
    · rw [if_pos chosen] at done
      obtain ⟨string, passed, given⟩ := (one _ _ rfl chosen).sound done clean
      refine ⟨state.cursor.peek.kind :: string, ?_, joins _ _ _ chosen given⟩
      rw [Cursor.kinds_advance (real chosen), List.cons_append]
      exact congrArg _ passed
    · rw [if_neg chosen] at done
      obtain ⟨string, passed, given⟩ := two.sound done clean
      exact ⟨string, passed, joins' _ _ _ (Cursor.head?_of_passed passed) (eq_false_of_ne_true chosen) given⟩
  case complete =>
    intro state string rest clean front fits
    rw [same]
    obtain ⟨tail, start⟩ := state.cursor.kinds_eq
    -- the first kind decides the branch, for the phrase as for the action
    have fits := splits string rest _ tail fits (front ▸ start)
    split
    · next chosen =>
      rw [if_pos chosen] at fits
      obtain ⟨further, rfl, fits₁⟩ := fits
      exact (one _ _ rfl chosen).complete clean (Cursor.advance_of_kinds front (real chosen)) fits₁
    · next chosen =>
      rw [if_neg chosen] at fits
      exact two.complete clean front fits

theorem read_bind (view : Compilation → α) (next : α → Parse β) (state : Compilation) :
    (Parse.read view >>= next) state = next (view state) state :=
  rfl

theorem peek_bind (next : Token → Parse β) (state : Compilation) :
    (peek >>= next) state = next state.cursor.peek state :=
  rfl

def onHead (heads : Kind → Bool) (yes : Token → Parse α) : Parse α := fun state =>
  if heads state.cursor.peek.kind = true then yes state.cursor.peek { state with cursor := state.cursor.advance }
  else failHere (.expect .expression) state

theorem onHead_bind {next : α → Parse β} (chosen : heads state.cursor.peek.kind = true) :
    (onHead heads yes >>= next) state =
      (yes state.cursor.peek >>= next) { state with cursor := state.cursor.advance } := by
  change EStateM.bind _ _ _ = EStateM.bind _ _ _
  rw [EStateM.bind, EStateM.bind, onHead, if_pos chosen]

theorem Reads.onHead (noEnd : heads .eof = false)
    (one : ∀ (token : Token) kind, token.kind = kind → heads kind = true → Reads (yes token) (taken kind) (given kind)) :
    Reads (onHead heads yes) (fun string rest => ∃ kind tail, string = kind :: tail ∧ heads kind = true ∧ taken kind tail rest)
      (fun string next => ∃ kind tail, string = kind :: tail ∧ heads kind = true ∧ given kind tail next) := by
  have never : Reads (Parse.failHere (.expect .expression) : Parse α) (fun _ _ => False) (fun _ _ => False) :=
    ⟨fun state => List.prefix_refl _, nofun, nofun⟩
  refine Reads.passing heads noEnd one never (fun _ => rfl) ?_ ?_ nofun
  · rintro string rest kind tail ⟨first, further, rfl, begins, fits⟩ front
    obtain ⟨rfl, -⟩ := List.cons.inj front
    rw [if_pos begins]
    exact ⟨further, rfl, fits⟩
  · intro first string kind begins given
    exact ⟨first, string, rfl, begins, given⟩

end Rules

-- Repetition. An action that wants to be repeated has passed a token, so that the bound on the repetitions is never met.
section Repetition

/-- One more repetition is begun by a token of some kinds; otherwise nothing happens. -/
structure Suffix (again : Parse Bool) (heads : Kind → Bool) (body : Parse Unit) : Prop where
  stops : ∀ state, heads state.cursor.peek.kind = false → again state = .ok false state
  goes : ∀ state, heads state.cursor.peek.kind = true → again state = (body >>= fun _ => pure true : Parse Bool) state

/-- One string after the other can be passed, and then no further one. -/
inductive Chain (heads : Kind → Bool) (takes : List Kind → List Kind → Prop) (rest : List Kind) : List Kind → Prop where
  | done {kind : Kind} {tail : List Kind} (ends : rest = kind :: tail) (stops : heads kind = false) :
      Chain heads takes rest []
  | more {front back : List Kind} (fits : takes front (back ++ rest)) (further : Chain heads takes rest back) :
      Chain heads takes rest (front ++ back)

inductive Chained (heads : Kind → Bool) (gives : List Kind → Kind → Prop) (kind : Kind) : List Kind → Prop where
  | done (stops : heads kind = false) : Chained heads gives kind []
  | more {front back : List Kind} {middle : Kind} (given : gives front middle)
      (follows : (back ++ [kind]).head? = some middle) (further : Chained heads gives kind back) :
      Chained heads gives kind (front ++ back)

theorem Suffix.unless {stopping : Kind → Bool}
    (same : ∀ state, again state = (if stopping state.cursor.peek.kind = true then pure false
      else body >>= fun _ => pure true : Parse Bool) state) : Suffix again (fun kind => !stopping kind) body := by
  constructor
  case stops =>
    intro state stops
    rw [Bool.not_eq_false'] at stops
    rw [same, if_pos stops]
    rfl
  case goes =>
    intro state goes
    rw [Bool.not_eq_true'] at goes
    rw [same, if_neg (Bool.eq_false_iff.mp goes)]

section

variable (suffix : Suffix again heads body)
include suffix

theorem Suffix.keeps (keeps : Keeps body) : Keeps again := by
  intro state
  cases decided : heads state.cursor.peek.kind with
  | false =>
    rw [suffix.stops state decided]
    exact List.prefix_refl _
  | true =>
    rw [suffix.goes state decided]
    exact keeps.bind (fun _ => .pure true) state

theorem Suffix.once (chosen : heads state.cursor.peek.kind = true) (bound : Nat) :
    repeatUpTo again (bound + 1) state = (body >>= fun _ => repeatUpTo again bound : Parse Unit) state := by
  have goes := suffix.goes state chosen
  cases done : body state with
  | ok value after =>
    rw [bind_eq done] at goes
    rw [repeatUpTo, bind_eq goes, bind_eq done]
    rfl
  | error error after =>
    rw [bind_error done] at goes
    rw [repeatUpTo, bind_error goes, bind_error done]

theorem Suffix.sound (reads : Reads body takes gives) (progress : ∀ kind, ¬ gives [] kind)
    (enough : state.cursor.kinds.length ≤ bound) (done : repeatUpTo again bound state = .ok () after) (clean : after.errors = #[]) :
    ∃ string, state.cursor.kinds = string ++ after.cursor.kinds ∧ Chained heads gives after.cursor.peek.kind string := by
  induction bound generalizing state with
  | zero =>
    rw [state.cursor.kinds_length] at enough
    omega
  | succ bound ih =>
    cases decided : heads state.cursor.peek.kind with
    | false =>
      obtain ⟨more, between, once, done⟩ := bind_ok done
      rw [suffix.stops state decided] at once
      cases once
      cases done
      exact ⟨[], rfl, .done decided⟩
    | true =>
      rw [suffix.once decided] at done
      obtain ⟨_, between, once, done⟩ := bind_ok done
      have keeps : Keeps (repeatUpTo again bound) := (suffix.keeps reads.keeps).repeatUpTo bound
      obtain ⟨front, split, given⟩ := reads.sound once (keeps.clean done clean)
      have shorter : between.cursor.kinds.length ≤ bound := by
        rw [split, List.length_append] at enough
        have : front ≠ [] := fun empty => progress _ (empty ▸ given)
        have := List.length_pos_iff.mpr this
        omega
      obtain ⟨back, split', chained⟩ := ih shorter done
      exact ⟨front ++ back, by rw [split, split', List.append_assoc],
        .more given (Cursor.head?_of_passed split') chained⟩

theorem Suffix.complete (reads : Reads body takes gives)
    (starts : ∀ string rest, takes string rest → ∃ kind tail, string = kind :: tail ∧ heads kind = true)
    (chain : Chain heads takes rest string) (enough : string.length ≤ bound) (clean : state.errors = #[])
    (front : state.cursor.kinds = string ++ rest) : Fine rest (repeatUpTo again bound state) := by
  induction chain generalizing bound state with
  | done ends stops =>
    rw [List.nil_append] at front
    cases bound with
    | zero => exact .done clean front
    | succ bound =>
      have once := suffix.stops state (Cursor.peek_of_kinds (front.trans ends) ▸ stops)
      rw [repeatUpTo, bind_eq once]
      exact .done clean front
  | @more first back fits _ ih =>
    obtain ⟨kind, tail, rfl, chosen⟩ := starts _ _ fits
    rw [List.append_assoc] at front
    cases bound with
    | zero => simp at enough
    | succ bound =>
      have keeps := suffix.keeps reads.keeps
      rw [suffix.once (Cursor.peek_of_kinds front ▸ chosen)]
      refine (reads.complete clean front fits).bind (fun _ => keeps.repeatUpTo bound) fun _ between clean passed => ?_
      refine ih ?_ clean passed
      simp only [List.length_append, List.length_cons] at enough
      omega

theorem Suffix.reads (reads : Reads body takes gives)
    (progress : ∀ kind, ¬ gives [] kind)
    (starts : ∀ string rest, takes string rest → ∃ kind tail, string = kind :: tail ∧ heads kind = true) :
    Reads (whileProgress again) (fun string rest => Chain heads takes rest string)
      (fun string kind => Chained heads gives kind string) := by
  constructor
  case keeps => exact (suffix.keeps reads.keeps).whileProgress
  case sound =>
    intro state _ after done clean
    exact suffix.sound reads progress (Nat.le_of_eq state.cursor.kinds_length) (read_ok done) clean
  case complete =>
    intro state string rest clean front chain
    refine suffix.complete reads starts chain ?_ clean front
    have length := state.cursor.kinds_length
    rw [front, List.length_append] at length
    change string.length ≤ state.cursor.remaining + 1
    omega

end

end Repetition

-- Strings of a language, whatever the tokens behind them are, or with a condition on those tokens.
section Languages

variable {action : Parse α} {next : α → Parse β} {strings strings₁ strings₂ : Language Kind}
  {follow follow₁ follow₂ : List Kind → List Kind → Prop} {what : Expectation}

/-- The action reads the strings of a language, where what follows them permits it. -/
abbrev Parses (action : Parse α) (strings : Language Kind) (follow : List Kind → List Kind → Prop) : Prop :=
  Reads action (fun string rest => string ∈ strings ∧ follow string rest) fun string _ => string ∈ strings

def always : List Kind → List Kind → Prop := fun _ _ => True

def before (kinds : Kind → Prop) : List Kind → List Kind → Prop :=
  fun _ rest => ∃ kind tail, rest = kind :: tail ∧ kinds kind

theorem Parses.mono (parses : Parses action strings follow₁)
    (less : ∀ string rest, string ∈ strings → follow string rest → follow₁ string rest) : Parses action strings follow :=
  Reads.mono parses (fun _ _ fits => ⟨fits.1, less _ _ fits.1 fits.2⟩) fun _ _ => id

theorem Parses.seq (one : Parses action strings₁ follow₁) (two : ∀ value, Parses (next value) strings₂ follow₂)
    (splits : ∀ front ∈ strings₁, ∀ back ∈ strings₂, ∀ rest, follow (front ++ back) rest →
      follow₁ front (back ++ rest) ∧ follow₂ back rest) :
    Parses (action >>= next) (strings₁ * strings₂) follow := by
  refine Reads.bind one two ?_ ?_
  · rintro string rest ⟨member, fits⟩
    obtain ⟨front, first, back, second, rfl⟩ := Language.mem_mul.mp member
    obtain ⟨fits₁, fits₂⟩ := splits front first back second rest fits
    exact ⟨front, back, rfl, ⟨first, fits₁⟩, second, fits₂⟩
  · intro front back kind middle _ first second
    exact Language.mem_mul.mpr ⟨front, first, back, second, rfl⟩

theorem Parses.both (one : Parses action strings₁ always) (two : ∀ value, Parses (next value) strings₂ always) :
    Parses (action >>= next) (strings₁ * strings₂) always :=
  one.seq two fun _ _ _ _ _ _ => ⟨trivial, trivial⟩

theorem Parses.silent (silent : Silent action) : Parses action 1 follow := by
  have nothing : Parses (pure () : Parse Unit) 1 follow := by
    constructor
    case keeps => exact .pure ()
    case sound =>
      intro state _ after done clean
      cases done
      exact ⟨[], rfl, rfl⟩
    case complete =>
      rintro state string rest clean front ⟨rfl, -⟩
      exact .done clean front
  have both : Parses (pure () >>= fun _ => action) 1 follow := Reads.then_silent nothing fun _ => silent
  exact both

theorem Parses.expect (real : kind ≠ .eof) (what : Expectation) : Parses (expect kind what) (one kind) follow := by
  constructor
  case keeps =>
    intro state
    unfold Parse.expect
    split <;> exact List.prefix_refl _
  case sound =>
    intro state _ after done clean
    obtain ⟨found, rfl⟩ := expect_ok done
    refine ⟨[kind], ?_, rfl⟩
    rw [Cursor.kinds_advance (found ▸ real), found]
    rfl
  case complete =>
    rintro state string rest clean front ⟨rfl, -⟩
    have found := Cursor.peek_of_kinds front
    have passes : Parse.expect kind what state = .ok () { state with cursor := state.cursor.advance } := by
      simp [Parse.expect, Cursor.expect, Cursor.check, found]
    rw [passes]
    exact .done clean (Cursor.advance_of_kinds front real)

theorem Parses.expectName (what : Expectation) : Parses (expectName what) (one .identifier) follow :=
  Reads.then_silent (Parses.expect (by decide) what) fun _ => (Obeys.read _).bind fun _ => .pure _

theorem Parses.expecting {next : Unit → Parse β} (real : kind ≠ .eof)
    (two : ∀ value, Parses (next value) strings follow) :
    Parses (Parse.expect kind what >>= next) (one kind * strings) fun string rest => follow string.tail rest := by
  refine Parses.seq (Parses.expect real what : Parses _ _ always) two ?_
  rintro _ rfl back - rest fits
  exact ⟨trivial, fits⟩

theorem Parses.naming {next : String → Parse β} (two : ∀ value, Parses (next value) strings follow) :
    Parses (Parse.expectName what >>= next) (one .identifier * strings) fun string rest => follow string.tail rest := by
  refine Parses.seq (Parses.expectName what : Parses _ _ always) two ?_
  rintro _ rfl back - rest fits
  exact ⟨trivial, fits⟩

theorem Parses.check {next : Bool → Parse α} (yes : Parses (next true) strings₁ follow) (no : Parses (next false) strings₂ follow)
    (chosen : ∀ string ∈ strings₁, ∀ rest, follow string rest → (string ++ rest).head? = some kind)
    (apart : ∀ string ∈ strings₂, ∀ rest, follow string rest → (string ++ rest).head? ≠ some kind) :
    Parses (check kind >>= next) (strings₁ + strings₂) follow := by
  refine Reads.branch (· == kind) yes no (fun state => ?_) ?_ ?_
  · change next (state.cursor.peek.kind == kind) state = _
    split
    · next found => rw [found]
    · next other => rw [eq_false_of_ne_true other]
  · rintro string rest first tail ⟨member | member, fits⟩ front
    · have same := chosen string member rest fits
      rw [front] at same
      cases same
      rw [if_pos (beq_self_eq_true _)]
      exact ⟨member, fits⟩
    · have other : first ≠ kind := by
        rintro rfl
        exact apart string member rest fits (by rw [front, List.head?_cons])
      rw [if_neg (by simpa using other)]
      exact ⟨member, fits⟩
  · intro string _ first _ given
    split at given
    · exact .inl given
    · exact .inr given

theorem Parses.accept (real : kind ≠ .eof) {next : Bool → Parse α}
    (yes : Parses (next true) strings₁ fun string rest => follow (kind :: string) rest) (no : Parses (next false) strings₂ follow)
    (apart : ∀ string ∈ strings₂, ∀ rest, follow string rest → (string ++ rest).head? ≠ some kind) :
    Parses (accept kind >>= next) (one kind * strings₁ + strings₂) follow := by
  refine Reads.passing (· == kind) (by simpa using real.symm) (fun _ _ _ _ => yes) no (fun state => ?_) ?_ ?_ ?_
  · rw [accept_bind]
    simp
  · rintro string rest first tail ⟨member | member, fits⟩ front
    · obtain ⟨further, inner, rfl⟩ := mem_one_mul.mp member
      obtain ⟨rfl, -⟩ := List.cons.inj front
      rw [if_pos (beq_self_eq_true _)]
      exact ⟨further, rfl, inner, fits⟩
    · have other : first ≠ kind := by
        rintro rfl
        exact apart string member rest fits (by rw [front, List.head?_cons])
      rw [if_neg (by simpa using other)]
      exact ⟨member, fits⟩
  · intro first string _ chosen given
    rw [beq_iff_eq] at chosen
    subst chosen
    exact .inl (mem_one_mul.mpr ⟨string, given, rfl⟩)
  · intro string _ _ _ _ given
    exact .inr given

theorem Suffix.many {good ends : Kind → Prop} (suffix : Suffix again heads body)
    (reads : Reads body (fun string rest => string ∈ strings ∧ before good string rest)
      fun string kind => string ∈ strings ∧ ends kind)
    (starts : ∀ string ∈ strings, ∃ kind tail, string = kind :: tail ∧ heads kind = true ∧ good kind) :
    Reads (whileProgress again)
      (fun string rest => string ∈ KStar.kstar strings ∧ before (fun kind => good kind ∧ heads kind = false) string rest)
      (fun string kind => string ∈ KStar.kstar strings ∧ heads kind = false ∧ (string = [] ∨ ends kind)) := by
  refine (suffix.reads reads ?_ fun string _ member => ?_).mono ?_ ?_
  · rintro kind ⟨member, -⟩
    obtain ⟨_, _, absurd, -⟩ := starts [] member
    cases absurd
  · obtain ⟨kind, tail, same, begins, -⟩ := starts string member.1
    exact ⟨kind, tail, same, begins⟩
  · rintro string rest ⟨member, kind, tail, rfl, fine, stops⟩
    obtain ⟨parts, rfl, members⟩ := Language.mem_kstar.mp member
    clear member
    induction parts with
    | nil => exact .done rfl stops
    | cons front parts ih =>
      rw [List.forall_mem_cons] at members
      refine .more ⟨members.1, ?_⟩ (ih members.2)
      -- What follows a string is the next one, or what follows them all.
      cases parts with
      | nil => exact ⟨kind, tail, rfl, fine⟩
      | cons back parts =>
        obtain ⟨first, further, rfl, -, fits⟩ := starts back (members.2 _ List.mem_cons_self)
        exact ⟨first, _, rfl, fits⟩
  · intro string kind chained
    induction chained with
    | done stops => exact ⟨Language.nil_mem_kstar _, stops, .inl rfl⟩
    | @more front back middle given follows _ ih =>
      obtain ⟨member, stops, ended⟩ := ih
      refine ⟨(mul_kstar_le_kstar : strings * KStar.kstar strings ≤ _) (Language.mem_mul.mpr ⟨front, given.1, back, member, rfl⟩), stops, .inr ?_⟩
      rcases ended with rfl | ended
      · cases follows
        exact given.2
      · exact ended

end Languages

-- Lists with commas.
section Lists

def separated (strings : Language Kind) : Language Kind := strings * KStar.kstar (one .comma * strings)

theorem separated_eq (strings : Language Kind) : separated strings = strings * (one .comma * separated strings + 1) := by
  conv_lhs => rw [separated, ← one_add_mul_kstar]
  rw [separated, add_comm, mul_assoc]

/-- After each part of the list, a comma says that there is another one. -/
structure Separated (item : Nat → Parse Unit) (finish : Nat → Parse α) (list : (bound count : Nat) → Parse α) : Prop where
  none : ∀ count, Silent (list 0 count)
  more : ∀ bound count state, list (bound + 1) count state = (item count >>= fun _ => accept .comma >>= fun further =>
    if further = true then list bound (count + 1) else finish count : Parse α) state

variable {item : Nat → Parse Unit} {finish : Nat → Parse α} {list : (bound count : Nat) → Parse α} {strings : Language Kind}
  {good : Kind → Prop} {count : Nat}

section

variable (commas : Separated item finish list)
include commas

theorem Separated.keeps (items : ∀ count, Keeps (item count))
    (last : ∀ count, Silent (finish count)) (bound count : Nat) : Keeps (list bound count) := by
  induction bound generalizing count with
  | zero => exact (commas.none count).keeps
  | succ bound ih =>
    intro state
    rw [commas.more]
    refine (items count).bind (fun _ => Obeys.bind (accept_keeps _) fun further => ?_) state
    exact .ite (ih _) (last count).keeps

theorem Separated.sound (reads : ∀ count, Parses (item count) strings (before good))
    (last : ∀ count, Silent (finish count)) (enough : state.cursor.kinds.length ≤ bound)
    (done : list bound count state = .ok value after) (clean : after.errors = #[]) :
    ∃ string, state.cursor.kinds = string ++ after.cursor.kinds ∧ string ∈ separated strings := by
  induction bound generalizing count state with
  | zero =>
    -- the end of the input is a kind too, so there is always one left
    rw [state.cursor.kinds_length] at enough
    omega
  | succ bound ih =>
    rw [commas.more] at done
    obtain ⟨_, between, once, done⟩ := bind_ok done
    rw [accept_bind] at done
    by_cases comma : between.cursor.peek.kind = .comma
    · rw [if_pos comma] at done
      have keeps := commas.keeps (fun count => (reads count).keeps) last bound (count + 1)
      change list bound (count + 1) _ = _ at done
      have clean' := keeps.clean done clean
      obtain ⟨front, split, member⟩ := (reads count).sound once clean'
      have split' : between.cursor.kinds = .comma :: between.cursor.advance.kinds := by
        rw [← comma]
        exact Cursor.kinds_advance (comma ▸ nofun)
      have shorter : between.cursor.advance.kinds.length ≤ bound := by
        rw [split, split', List.length_append, List.length_cons] at enough
        omega
      obtain ⟨back, split'', members⟩ := ih shorter done
      refine ⟨front ++ .comma :: back, ?_, ?_⟩
      · rw [split, split', split'', List.append_assoc]
        rfl
      · rw [separated_eq]
        exact Language.mem_mul.mpr ⟨front, member, _, .inl (mem_one_mul.mpr ⟨back, members, rfl⟩), rfl⟩
    · rw [if_neg comma] at done
      change finish count between = _ at done
      have quiet := last count between
      rw [done] at quiet
      obtain ⟨front, split, member⟩ := (reads count).sound once (quiet.2.symm.trans clean)
      refine ⟨front, by rw [split, quiet.1], ?_⟩
      rw [separated_eq]
      exact Language.mem_mul.mpr ⟨front, member, [], .inr rfl, List.append_nil _⟩

theorem Separated.complete (reads : ∀ count, Parses (item count) strings (before good))
    (last : ∀ count, Silent (finish count)) (goesOn : good .comma) (clean : state.errors = #[])
    (front : state.cursor.kinds = string ++ rest) (enough : string.length < bound) (member : string ∈ separated strings)
    (follow : before (fun kind => good kind ∧ kind ≠ .comma) string rest) : Fine rest (list bound count state) := by
  induction bound generalizing count state string with
  | zero => cases enough
  | succ bound ih =>
    have keeps (count : Nat) := commas.keeps (fun count => (reads count).keeps) last bound count
    obtain ⟨next, tail, rfl, fits, other⟩ := follow
    rw [separated_eq] at member
    obtain ⟨first, part, back, further, rfl⟩ := Language.mem_mul.mp member
    rw [List.append_assoc] at front
    rw [commas.more]
    have after : before good first (back ++ next :: tail) := by
      rcases further with further | rfl
      · obtain ⟨back, -, rfl⟩ := mem_one_mul.mp further
        exact ⟨.comma, _, rfl, goesOn⟩
      · exact ⟨next, tail, rfl, fits⟩
    refine ((reads count).complete clean front ⟨part, after⟩).bind
      (fun _ => (accept_keeps _).bind fun _ => .ite (keeps _) (last count).keeps) fun _ between clean passed => ?_
    rw [accept_bind]
    rcases further with further | rfl
    · obtain ⟨back, members, rfl⟩ := mem_one_mul.mp further
      rw [if_pos (Cursor.peek_of_kinds passed)]
      refine ih clean (Cursor.advance_of_kinds passed nofun) ?_ members ⟨next, tail, rfl, fits, other⟩
      simp only [List.length_append, List.length_cons] at enough
      omega
    · rw [if_neg (Cursor.peek_of_kinds passed ▸ other)]
      exact (last count).fine clean passed

theorem Separated.reads (reads : ∀ count, Parses (item count) strings (before good)) (last : ∀ count, Silent (finish count))
    (goesOn : good .comma) (count : Nat) :
    Parses (tokenBound >>= fun bound => list bound count) (separated strings)
      (before fun kind => good kind ∧ kind ≠ .comma) := by
  constructor
  case keeps => exact fun state => commas.keeps (fun count => (reads count).keeps) last _ count state
  case sound =>
    intro state value after done clean
    change list (state.cursor.remaining + 1) count state = _ at done
    exact commas.sound reads last (Nat.le_of_eq state.cursor.kinds_length) done clean
  case complete =>
    rintro state string rest clean front ⟨member, follow⟩
    refine commas.complete reads last goesOn clean front ?_ member follow
    obtain ⟨kind, tail, rfl, -⟩ := follow
    have length := state.cursor.kinds_length
    rw [front, List.length_append, List.length_cons] at length
    change string.length < state.cursor.remaining + 1
    omega

end

end Lists

-- Actions that begin with a change of the state and end with another one, also where they fail.
section Wrapping

variable {enter leave : Compilation → Compilation} {exit : α → Parse β} {phrase : StackScript.Phrase}

theorem Keeps.wrapped {body : Parse α} (keeps : Keeps body)
    (entering : ∀ state, (enter state).errors = state.errors) (leaving : ∀ state, (leave state).errors = state.errors)
    (exiting : ∀ value, Keeps (exit value)) : Keeps (wrapped enter leave body exit) :=
  Obeys.wrapped keeps (fun goes => (exiting _ _).after (adding.trans (adding_same (entering _)) goes)) fun fails =>
    adding.trans (adding.trans (adding_same (entering _)) fails) (adding_same (leaving _))

theorem Reads.wrapped {body : Parse α}
    (reads : Reads body takes gives)
    (entering : ∀ state, (enter state).cursor = state.cursor ∧ (enter state).errors = state.errors)
    (leaving : ∀ state, (leave state).errors = state.errors) (exiting : ∀ value, Silent (exit value)) :
    Reads (wrapped enter leave body exit) takes gives := by
  have both : Reads (body >>= exit) takes gives := reads.then_silent exiting
  have same (state : Compilation) : Reading.wrapped enter leave body exit state = (body >>= exit) (enter state) ∨
      ∃ error after, (body >>= exit) (enter state) = .error error after ∧
        Reading.wrapped enter leave body exit state = .error error (leave after) := by
    unfold Reading.wrapped
    cases done : body (enter state) with
    | ok value after => exact .inl (bind_eq done).symm
    | error error after => exact .inr ⟨error, after, bind_error done, rfl⟩
  constructor
  case keeps => exact reads.keeps.wrapped (fun state => (entering state).2) leaving fun value => (exiting value).keeps
  case sound =>
    intro state value after done clean
    rcases same state with same | ⟨error, between, failed, same⟩
    · rw [same] at done
      rw [← (entering state).1]
      exact both.sound done clean
    · rw [same] at done
      cases done
  case complete =>
    intro state string rest clean front fits
    have fine := both.complete ((entering state).2.trans clean) ((entering state).1.symm ▸ front) fits
    rcases same state with same | ⟨error, after, failed, same⟩
    · rwa [same]
    · rw [failed] at fine
      rw [same]
      cases fine with
      | failed noted => exact .failed ((leaving after).symm ▸ noted)

theorem nested_eq (phrase : StackScript.Phrase) (body : Parse Unit) (state : Compilation) :
    nested phrase body state =
      if state.nesting ≥ maxNesting then failHere (.nestedTooDeeply phrase) state
      else wrapped Compilation.deeper Compilation.shallower body (fun _ => update (·.shallower)) state := by
  unfold nested wrapped
  cases body state.deeper <;> rfl

theorem Keeps.nested (keeps : Keeps body) : Keeps (nested phrase body) := by
  have leaving : Silent (update (·.shallower)) := .update fun _ => ⟨rfl, rfl⟩
  have inside : Keeps (Reading.wrapped Compilation.deeper Compilation.shallower body fun _ => update (·.shallower)) :=
    keeps.wrapped (fun _ => rfl) (fun _ => rfl) fun _ => leaving.keeps
  intro state
  rw [nested_eq]
  split
  · exact List.prefix_refl _
  · exact inside state

theorem nested_reads (reads : Reads body takes gives) : Reads (nested phrase body) takes gives := by
  have inside : Reads (wrapped Compilation.deeper Compilation.shallower body fun _ => update (·.shallower)) takes gives :=
    reads.wrapped (fun _ => ⟨rfl, rfl⟩) (fun _ => rfl) fun _ => .update fun _ => ⟨rfl, rfl⟩
  have refused : Reads (failHere (.nestedTooDeeply phrase) : Parse Unit) takes gives := .failHere rfl
  constructor
  case keeps => exact .nested reads.keeps
  case sound =>
    intro state value after done clean
    rw [nested_eq] at done
    split at done
    · exact refused.sound done clean
    · exact inside.sound done clean
  case complete =>
    intro state string rest clean front fits
    rw [nested_eq]
    split
    · exact refused.complete clean front fits
    · exact inside.complete clean front fits

end Wrapping

end Reading

end StackScript
