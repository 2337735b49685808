import StackScript.Proofs.PhraseConduct
import StackScript.Proofs.Progress
import StackScript.Proofs.TokenPlaces

/-!
Complaints come in the order of the text. A complaint is about the current token or about the one behind it, and no earlier
complaint is about a later token: whoever goes on after a complaint leaves the current token behind first. At the end of the
text that is not possible, but from there on nothing complains about the token behind.
-/

namespace StackScript

namespace Compile

open Parse Reading Conduct

variable {tokens : Array Token} {state before after : Compilation} {error : CompileError}

/-- Complaints about tokens in their order, the last of them about this token or one in front of it. -/
inductive Noted (tokens : Array Token) : Array CompileError → Nat → Prop where
  | none (last : Nat) : Noted tokens #[] last
  | note {errors : Array CompileError} {index last : Nat} {token : Token} (what : Complaint) (earlier : Noted tokens errors index)
      (found : tokens[index]? = some token) (within : index ≤ last) : Noted tokens (errors.push (.about token what)) last

namespace Noted

variable {errors : Array CompileError} {first last : Nat}

theorem mono (noted : Noted tokens errors first) (within : first ≤ last) : Noted tokens errors last := by
  cases noted with
  | none => exact .none last
  | note what earlier found inside => exact .note what earlier found (Nat.le_trans inside within)

theorem about (noted : Noted tokens errors last) (member : error ∈ errors) :
    ∃ index token, tokens[index]? = some token ∧ index ≤ last ∧ error = .about token error.what := by
  induction noted with
  | none => exact absurd member (Array.not_mem_empty error)
  | @note errors index last token what earlier found within ih =>
    rcases Array.mem_push.mp member with old | rfl
    · obtain ⟨index', token', found', within', same⟩ := ih old
      exact ⟨index', token', found', Nat.le_trans within' within, same⟩
    · exact ⟨index, token, found, within, rfl⟩

theorem sorted (noted : Noted tokens errors last) (ordered : Ordered tokens) :
    errors.toList.Pairwise fun first second => first.span.start ≤ second.span.start := by
  induction noted with
  | none => exact .nil
  | @note errors index last token what earlier found within ih =>
    rw [Array.toList_push, List.pairwise_append]
    refine ⟨ih, List.pairwise_singleton _ _, fun error member latest isLatest => ?_⟩
    obtain rfl := List.mem_singleton.mp isLatest
    obtain ⟨index', token', found', within', same⟩ := earlier.about (Array.mem_toList_iff.mp member)
    obtain ⟨inside, rfl⟩ := Array.getElem?_eq_some_iff.mp found
    obtain ⟨inside', rfl⟩ := Array.getElem?_eq_some_iff.mp found'
    rw [same]
    exact (ordered.upTo within' inside).start

end Noted

/-- All complaints so far are about tokens behind the cursor. -/
structure Settled (tokens : Array Token) (state : Compilation) : Prop where
  same : state.cursor.tokens = tokens
  noted : Noted tokens state.errors (state.cursor.position - 1)

/-- The error is about the current token or one behind it, and no earlier complaint is about a later token. -/
structure Failing (tokens : Array Token) (error : CompileError) (state : Compilation) : Prop where
  same : state.cursor.tokens = tokens
  about : ∃ index token, tokens[index]? = some token ∧ index ≤ state.cursor.position ∧ error = .about token error.what ∧
    Noted tokens state.errors index

/-- The text is over. There may be a complaint about that. -/
structure Ended (tokens : Array Token) (state : Compilation) : Prop where
  same : state.cursor.tokens = tokens
  noted : Noted tokens state.errors state.cursor.position
  isAtEnd : state.cursor.isAtEnd = true

def ordering (tokens : Array Token) : Conduct CompileError Compilation where
  goes before after := Settled tokens before → Settled tokens after
  fails before error after := Settled tokens before → Failing tokens error after
  refl _ := id
  trans one two settled := two (one settled)
  fails_after one two settled := two (one settled)

section Closed

theorem Settled.quiet (settled : Settled tokens before)
    (quiet : after.cursor = before.cursor ∧ after.errors = before.errors) : Settled tokens after := by
  obtain ⟨cursor, errors⟩ := quiet
  exact ⟨cursor ▸ settled.same, by rw [cursor, errors]; exact settled.noted⟩

theorem Failing.quiet (failing : Failing tokens error before)
    (quiet : after.cursor = before.cursor ∧ after.errors = before.errors) : Failing tokens error after := by
  obtain ⟨cursor, errors⟩ := quiet
  exact ⟨cursor ▸ failing.same, by rw [cursor, errors]; exact failing.about⟩

theorem Noted.failHere (noted : Noted tokens state.errors state.cursor.position) (same : state.cursor.tokens = tokens)
    (complaint : Complaint) : Failing tokens (state.cursor.remarkHere complaint) state := by
  have found : tokens[state.cursor.position]? = some state.cursor.peek := by
    rw [← same]
    exact Array.getElem?_eq_getElem state.cursor.inside
  exact ⟨same, _, _, found, Nat.le_refl _, rfl, noted⟩

theorem Settled.failHere (settled : Settled tokens state) (complaint : Complaint) :
    Failing tokens (state.cursor.remarkHere complaint) state :=
  (settled.noted.mono (Nat.sub_le _ _)).failHere settled.same complaint

theorem Settled.failBehind (settled : Settled tokens state) (complaint : Complaint) :
    Failing tokens (state.cursor.remarkBehind complaint) state := by
  have inside : state.cursor.position - 1 < state.cursor.tokens.size := Nat.lt_of_le_of_lt (Nat.sub_le _ _) state.cursor.inside
  have found : tokens[state.cursor.position - 1]? = some state.cursor.previous := by
    rw [← settled.same]
    exact Array.getElem?_eq_getElem inside
  exact ⟨settled.same, _, _, found, Nat.sub_le _ _, rfl, settled.noted⟩

theorem Settled.advance (settled : Settled tokens state) : Settled tokens { state with cursor := state.cursor.advance } := by
  have ahead := Cursor.Ahead.advance state.cursor
  exact ⟨ahead.tokens.trans settled.same, settled.noted.mono (Nat.sub_le_sub_right ahead.forward 1)⟩

instance : (ordering tokens).Closed where
  toWrites := .of_recode (fun _ _ settled => settled.failBehind _) (fun _ _ _ settled => settled.quiet ⟨rfl, rfl⟩) fun _ =>
    resolveCapture_obeys (fun _ settled => settled.quiet ⟨rfl, rfl⟩) fun _ _ settled => (settled.failBehind _).quiet ⟨rfl, rfl⟩
  here complaint _ settled := settled.failHere complaint
  behind complaint _ settled := settled.failBehind complaint
  advance _ := Settled.advance

instance : (ordering tokens).Deepens where
  shallower goes settled := (goes (settled.quiet ⟨rfl, rfl⟩)).quiet ⟨rfl, rfl⟩
  escape fails settled := (fails (settled.quiet ⟨rfl, rfl⟩)).quiet ⟨rfl, rfl⟩

instance : (ordering tokens).Rescopes where
  rescope _ _ _ _ settled := settled.quiet ⟨rfl, rfl⟩
  reclass _ _ settled := settled.quiet ⟨rfl, rfl⟩

end Closed

section Recovery

theorem Failing.recover (failing : Failing tokens error state) (depth locals : Nat) :
    Settled tokens (state.recover error depth locals) ∨ Ended tokens (state.recover error depth locals) := by
  obtain ⟨same, index, token, found, within, about, noted⟩ := failing
  have ahead := Cursor.Ahead.synchronize state.cursor
  have pushed : Noted tokens (state.errors.push error) index := about ▸ .note _ noted found (Nat.le_refl _)
  by_cases more : state.cursor.isAtEnd = false
  · left
    have next : state.cursor.advance.position = state.cursor.position + 1 := by
      unfold Cursor.advance
      rw [dif_pos more]
    have further := (Cursor.Ahead.toBoundary state.cursor.advance).forward
    refine ⟨ahead.tokens.trans same, pushed.mono ?_⟩
    change index ≤ state.cursor.advance.toBoundary.position - 1
    omega
  · right
    have stays : state.cursor.synchronize = state.cursor := by
      have still : state.cursor.advance = state.cursor := dif_neg more
      unfold Cursor.synchronize
      rw [still, Cursor.toBoundary, dif_neg more]
    refine ⟨ahead.tokens.trans same, ?_, ?_⟩
    · change Noted tokens (state.errors.push error) state.cursor.synchronize.position
      rw [stays]
      exact pushed.mono within
    · change state.cursor.synchronize.isAtEnd = true
      rw [stays]
      exact Bool.eq_true_of_not_eq_false more

end Recovery

section Declarations

variable {inner : Inner} {body : Parse Unit} {kind : Kind} {what : Expectation}

theorem inScope_ordering (obeys : (ordering tokens).Obeys body) : (ordering tokens).Obeys (inScope body) := by
  have ends (state : Compilation) : silence.goes state state.endScope := endScope_obeys state
  rw [inScope_eq]
  exact obeys.wrapped (fun goes settled => (goes (settled.quiet ⟨rfl, rfl⟩)).quiet (ends _))
    fun fails settled => (fails (settled.quiet ⟨rfl, rfl⟩)).quiet (ends _)

theorem function_ordering (obeys : (ordering tokens).Obeys body) (kind : FunctionKind) :
    (ordering tokens).Obeys (function body kind) := by
  have closes (state : Compilation) : state.closeFunction.cursor = state.cursor ∧ state.closeFunction.errors = state.errors :=
    ⟨closeFunction_cursor state, closeFunction_errors state⟩
  rw [function_eq]
  refine obeys.wrapped (fun {before after _} goes => ?_) fun fails settled => (fails (settled.quiet ⟨rfl, rfl⟩)).quiet (closes _)
  have closed : (ordering tokens).goes before after.closeFunction :=
    fun settled => (goes (settled.quiet ⟨rfl, rfl⟩)).quiet (closes after)
  exact (leaveFunction_allows (fun _ _ settled => settled.quiet ⟨rfl, rfl⟩) after).after closed

theorem inClass_ordering (obeys : (ordering tokens).Obeys body) : (ordering tokens).Obeys (inClass body) := by
  rw [inClass_eq]
  exact obeys.wrapped (fun goes settled => (goes (settled.quiet ⟨rfl, rfl⟩)).quiet ⟨rfl, rfl⟩)
    fun fails settled => (fails (settled.quiet ⟨rfl, rfl⟩)).quiet ⟨rfl, rfl⟩

structure Orders (tokens : Array Token) (inner : Inner) : Prop where
  expression : (ordering tokens).Obeys inner.expression
  statement : (ordering tokens).Obeys inner.statement
  functionBody : (ordering tokens).Obeys inner.functionBody

theorem declarationOrFail_ordering (orders : Orders tokens inner) : (ordering tokens).Obeys (declarationOrFail inner) := by
  have function := function_ordering orders.functionBody
  refine rebuilt_obeys (.declarationOrFail (fun kind _ => .given (function kind)) trivial (fun _ => .given orders.expression)
    (.given orders.statement) fun name => .given (inClass_ordering ?_))
  exact rebuilt_obeys (.classBody trivial (fun kind _ => .given (function kind)) name)

/-- Complaints are in order, and those that are behind the cursor are all there are unless the text is over. -/
def Lasting (tokens : Array Token) (state : Compilation) : Prop := Settled tokens state ∨ Ended tokens state

theorem declaration_lasting (orders : Orders tokens inner) (settled : Settled tokens state) :
    ∃ after, declaration inner state = .ok () after ∧ Lasting tokens after := by
  have allowed := declarationOrFail_ordering orders state
  unfold declaration
  cases performed : declarationOrFail inner state with
  | ok _ after =>
    rw [performed] at allowed
    exact ⟨after, rfl, .inl (allowed settled)⟩
  | error error after =>
    rw [performed] at allowed
    exact ⟨_, rfl, (allowed settled).recover _ _⟩

theorem Lasting.expect_ok (lasting : Lasting tokens before) (real : kind ≠ .eof)
    (passed : expect kind what before = .ok () after) : Settled tokens after := by
  unfold expect Cursor.expect at passed
  split at passed
  · next cursor accepted =>
    split at accepted
    · next found =>
      cases accepted
      cases passed
      rcases lasting with settled | ended
      · exact settled.advance
      · have same : before.cursor.peek.kind = kind := eq_of_beq found
        exact absurd (same.symm.trans (eq_of_beq ended.isAtEnd)) real
    · cases accepted
  · cases passed

theorem Lasting.expect_error (lasting : Lasting tokens before)
    (refused : expect kind what before = .error error after) : Failing tokens error after := by
  unfold expect Cursor.expect at refused
  split at refused
  · cases refused
  · next complaint rejected =>
    split at rejected
    · cases rejected
    · cases rejected
      cases refused
      rcases lasting with settled | ended
      · exact settled.failHere _
      · exact ended.noted.failHere ended.same _

theorem whileProgress_lasting {again : Parse Bool} (lasts : ∀ {state}, Lasting tokens state →
      ∃ more after, again state = .ok more after ∧ Lasting tokens after) (lasting : Lasting tokens state) :
    ∃ after, whileProgress again state = .ok () after ∧ Lasting tokens after := by
  have repeated (bound : Nat) {state : Compilation} (lasting : Lasting tokens state) :
      ∃ after, repeatUpTo again bound state = .ok () after ∧ Lasting tokens after := by
    induction bound generalizing state with
    | zero => exact ⟨state, rfl, lasting⟩
    | succ bound ih =>
      obtain ⟨more, between, performed, lasting⟩ := lasts lasting
      unfold repeatUpTo
      rw [bind_eq performed]
      split
      · exact ih lasting
      · exact ⟨between, rfl, lasting⟩
  exact repeated _ lasting

theorem suffix_lasting (orders : Orders tokens inner) {stops : Bool} (ends : state.cursor.isAtEnd = true → stops = true)
    (lasting : Lasting tokens state) : ∃ more after, (if stops = true then pure false else do
      declaration inner
      return true : Parse Bool) state = .ok more after ∧ Lasting tokens after := by
  by_cases stopped : stops = true
  · rw [if_pos stopped]
    exact ⟨false, state, rfl, lasting⟩
  · rw [if_neg stopped]
    rcases lasting with settled | ended
    · obtain ⟨after, performed, lasting⟩ := declaration_lasting orders settled
      exact ⟨true, after, bind_eq performed, lasting⟩
    · exact absurd (ends ended.isAtEnd) stopped

theorem block_ordering (orders : Orders tokens inner) : (ordering tokens).Obeys (block inner) := by
  intro state
  have loops (settled : Settled tokens state) :
      ∃ after, whileProgress (blockSuffix inner) state = .ok () after ∧ Lasting tokens after := by
    refine whileProgress_lasting (fun {state} lasting => ?_) (.inl settled)
    have ends : state.cursor.isAtEnd = true → (state.cursor.check .rightBrace || state.cursor.isAtEnd) = true := by simp +contextual
    exact suffix_lasting orders ends lasting
  cases performed : block inner state with
  | ok _ after =>
    intro settled
    obtain ⟨between, looped, lasting⟩ := loops settled
    have closed : expect .rightBrace .rightBraceAfterBlock between = .ok () after := (bind_eq looped).symm.trans performed
    exact lasting.expect_ok (by decide) closed
  | error error after =>
    intro settled
    obtain ⟨between, looped, lasting⟩ := loops settled
    have refused : expect .rightBrace .rightBraceAfterBlock between = .error error after := (bind_eq looped).symm.trans performed
    exact lasting.expect_error refused

theorem wholeStatement_ordering (orders : Orders tokens inner) : (ordering tokens).Obeys (wholeStatement inner) := by
  refine wholeStatement_obeys orders.expression orders.statement (inScope_ordering ?_)
    (inScope_ordering (block_ordering orders))
  exact forClauses_obeys orders.expression orders.statement (rebuilt_obeys (.varDeclaration trivial fun _ => .given orders.expression))

theorem wholeFunctionBody_ordering (orders : Orders tokens inner) : (ordering tokens).Obeys (wholeFunctionBody inner) :=
  rebuilt_obeys (.wholeFunctionBody trivial (.given (block_ordering orders)))

theorem within_orders (tokens : Array Token) (budget : Nat) : Orders tokens (.within budget) := by
  induction budget with
  | zero => exact ⟨(expressions_obey 0).1, failHere_obeys _, failHere_obeys _⟩
  | succ budget ih =>
    exact ⟨(expressions_obey (budget + 1)).1, nested_obeys (wholeStatement_ordering ih) _,
      nested_obeys (wholeFunctionBody_ordering ih) _⟩

theorem finalState_noted (closed : StackScript.Closed tokens) : ∃ last, Noted tokens (finalState tokens).errors last := by
  have started : Settled tokens (.start tokens) := ⟨Cursor.ofTokens_tokens closed, .none _⟩
  obtain ⟨finished, finishes, final⟩ := finalState_eq tokens
  have declares {state : Compilation} : Lasting tokens state → ∃ more after, programSuffix state = .ok more after ∧ Lasting tokens after :=
    suffix_lasting (within_orders tokens maxNesting) id
  obtain ⟨after, performed, lasting⟩ := whileProgress_lasting declares (.inl started)
  cases finishes.symm.trans performed
  rw [final, emitReturn_eq, emitBytes_errors]
  rcases lasting with settled | ended
  · exact ⟨_, settled.noted⟩
  · exact ⟨_, ended.noted⟩

end Declarations

end Compile

open Compile in
/-- Complaints come in the order of the text, each about one of its tokens. -/
theorem diagnostics_in_order {source : String} {errors : List CompileError}
    (failed : compileSource source = .error (.compile errors)) :
    ∃ tokens, scan source = .ok tokens ∧ errors.Pairwise (fun first second => first.span.start ≤ second.span.start) ∧
      ∀ error ∈ errors, ∃ token ∈ tokens, error.span = token.span ∧
        error.lexeme = if token.kind = .eof then "end" else token.lexeme := by
  unfold compileSource at failed
  cases scanned : scan source with
  | error error =>
    rw [scanned] at failed
    cases failed
  | ok tokens =>
    rw [scanned] at failed
    obtain ⟨last, noted⟩ := finalState_noted (scan_closed scanned)
    have reported : errors = (finalState tokens).errors.toList := by
      simp only [compile] at failed
      by_cases none : (finalState tokens).errors.isEmpty = true
      · rw [if_pos none] at failed
        cases failed
      · rw [if_neg none] at failed
        cases failed
        rfl
    refine ⟨tokens, rfl, reported ▸ noted.sorted (scan_ordered scanned), fun error member => ?_⟩
    obtain ⟨index, token, found, -, about⟩ := noted.about (Array.mem_toList_iff.mp (reported ▸ member))
    refine ⟨token, Array.mem_of_getElem? found, ?_, ?_⟩
    · rw [about]
      rfl
    · rw [about]
      rfl

/-- Two complaints inside a block, and one about its missing brace. -/
theorem diagnostics_in_order_block : ∃ errors, compileSource "\x7b var 1; print ;" = .error (.compile errors) ∧ errors.length = 3 ∧
    errors.Pairwise fun first second => first.span.start ≤ second.span.start := by
  have complains : (scan "\x7b var 1; print ;").toOption.map (fun tokens => (Compile.finalState tokens).errors.toList.length) =
      some 3 := by decide +kernel
  cases scanned : scan "\x7b var 1; print ;" with
  | error error =>
    rw [scanned] at complains
    cases complains
  | ok tokens =>
    rw [scanned] at complains
    have complains : (Compile.finalState tokens).errors.toList.length = 3 := Option.some.inj complains
    have some : ¬(Compile.finalState tokens).errors.isEmpty = true := by
      rw [Array.isEmpty_iff]
      intro none
      rw [none] at complains
      cases complains
    have failed : compileSource "\x7b var 1; print ;" = .error (.compile (Compile.finalState tokens).errors.toList) := by
      simp only [compileSource, scanned, compile, if_neg some]
    obtain ⟨-, -, sorted, -⟩ := diagnostics_in_order failed
    exact ⟨_, failed, complains, sorted⟩

end StackScript
