import StackScript.Proofs.Progress
import StackScript.Proofs.TokenPlaces
import StackScript.Proofs.WellFormedCode

/-!
Line tables. Code is written with the line of the token behind the cursor, and the cursor never moves back. So every byte of
compiled code has a line in the table of its function, it is the line of a token, and lines ascend along the code.
-/

namespace StackScript

variable {tokens : Array Token} {script proto : Proto} {chunk : Chunk Proto}

/-- Every byte of the code has a line, which is that of a token, and along the code lines do not go back. -/
structure Chunk.Lined (tokens : Array Token) (chunk : Chunk Proto) : Prop where
  size : chunk.lines.size = chunk.code.size
  drawn : ∀ line ∈ chunk.lines, ∃ token ∈ tokens, token.span.line = line
  ascending : chunk.lines.toList.Pairwise (· ≤ ·)

/-- The code of the function and of all functions in it has its lines. -/
inductive Proto.Lined (tokens : Array Token) : Proto → Prop where
  | intro {proto : Proto} (own : proto.chunk.Lined tokens) (inner : ∀ function ∈ proto.chunk.functions, function.Lined tokens) :
      proto.Lined tokens

theorem Proto.Lined.contains (lined : script.Lined tokens)
    (inside : script.Contains proto) : proto.Lined tokens := by
  induction inside with
  | self => exact lined
  | nested around member ih =>
    cases ih with
    | intro own inner => exact inner _ member

theorem Proto.Lined.lines (lined : proto.Lined tokens) : proto.chunk.Lined tokens := by
  cases lined with
  | intro own _ => exact own

theorem Cursor.Ahead.line {first second : Cursor} (ordered : Ordered first.tokens) (ahead : first.Ahead second) :
    first.previous.span.line ≤ second.previous.span.line := by
  obtain ⟨tokens, position, inside, closed⟩ := second
  obtain rfl : tokens = first.tokens := ahead.tokens
  exact (ordered.upTo (Nat.sub_le_sub_right ahead.forward 1) (Nat.lt_of_le_of_lt (Nat.sub_le _ _) inside)).line

namespace Compile

open Parse Reading Conduct Lockstep

variable {tokens : Array Token}

/-- The code so far has its lines, none behind the given one, and so have the functions listed in it. -/
structure Tabled (tokens : Array Token) (last : Nat) (chunk : Chunk Proto) : Prop where
  own : chunk.Lined tokens
  reached : ∀ line ∈ chunk.lines, line ≤ last
  inner : ∀ function ∈ chunk.functions, function.Lined tokens

namespace Tabled

variable {last : Nat} {chunk : Chunk Proto}

theorem empty : Tabled tokens last {} := ⟨⟨rfl, nofun, .nil⟩, nofun, nofun⟩

theorem write {token : Token} (tabled : Tabled tokens token.span.line chunk) (member : token ∈ tokens) (byte : UInt8) :
    Tabled tokens token.span.line (chunk.write byte token.span.line) := by
  refine ⟨⟨?_, fun line listed => ?_, ?_⟩, fun line listed => ?_, tabled.inner⟩
  · simp only [Chunk.write, Array.size_push, tabled.own.size]
  · rcases Array.mem_push.mp listed with old | rfl
    · exact tabled.own.drawn line old
    · exact ⟨token, member, rfl⟩
  · rw [Chunk.write, Array.toList_push, List.pairwise_append]
    refine ⟨tabled.own.ascending, List.pairwise_singleton _ _, fun line listed newest isLast => ?_⟩
    obtain rfl := List.mem_singleton.mp isLast
    exact tabled.reached line (Array.mem_toList_iff.mp listed)
  · rcases Array.mem_push.mp listed with old | rfl
    · exact tabled.reached line old
    · exact Nat.le_refl _

section

variable (tabled : Tabled tokens last chunk)
include tabled

theorem writeAt (offset : Nat) (byte : UInt8) :
    Tabled tokens last (chunk.writeAt offset byte) := by
  refine ⟨⟨?_, tabled.own.drawn, tabled.own.ascending⟩, tabled.reached, tabled.inner⟩
  simpa only [Chunk.writeAt, Array.size_setIfInBounds] using tabled.own.size

theorem addConstant (value : Value) : Tabled tokens last (chunk.addConstant value) :=
  ⟨⟨tabled.own.size, tabled.own.drawn, tabled.own.ascending⟩, tabled.reached, tabled.inner⟩

theorem addString (text : String) : Tabled tokens last (chunk.addString text) :=
  ⟨⟨tabled.own.size, tabled.own.drawn, tabled.own.ascending⟩, tabled.reached, tabled.inner⟩

theorem addFunction {function : Proto} (lined : function.Lined tokens) :
    Tabled tokens last (chunk.addFunction function) := by
  refine ⟨⟨tabled.own.size, tabled.own.drawn, tabled.own.ascending⟩, tabled.reached, fun other member => ?_⟩
  rcases Array.mem_push.mp member with old | rfl
  · exact tabled.inner other old
  · exact lined

theorem later {next : Nat} (later : last ≤ next) : Tabled tokens next chunk :=
  ⟨tabled.own, fun line listed => Nat.le_trans (tabled.reached line listed) later, tabled.inner⟩

end

end Tabled

/-- All code of the compilation so far has its lines, up to that of the token behind the cursor. -/
structure Lining (tokens : Array Token) (state : Compilation) : Prop where
  source : state.cursor.tokens = tokens
  ordered : Ordered tokens
  scope : Tabled tokens state.cursor.previous.span.line state.scope.chunk
  enclosing : ∀ outer ∈ state.enclosing, Tabled tokens state.cursor.previous.span.line outer.chunk

abbrev lining (tokens : Array Token) : Conduct CompileError Compilation := staying (Lining tokens)

namespace Lining

variable {state : Compilation}

theorem recode (lined : Lining tokens state) (tabled : Tabled tokens state.cursor.previous.span.line chunk) :
    Lining tokens { state with scope := { state.scope with chunk } } :=
  ⟨lined.source, lined.ordered, tabled, lined.enclosing⟩

theorem moved (lined : Lining tokens state) {cursor : Cursor} (ahead : state.cursor.Ahead cursor) (errors : Array CompileError) :
    Lining tokens { state with cursor, errors } := by
  have line := ahead.line (lined.source ▸ lined.ordered)
  exact ⟨ahead.tokens.trans lined.source, lined.ordered, lined.scope.later line,
    fun outer member => (lined.enclosing outer member).later line⟩

theorem closeFunction (lined : Lining tokens state) : Lining tokens state.closeFunction := by
  have around := lined.enclosing
  unfold Compilation.closeFunction
  cases outer : state.enclosing with
  | nil => exact lined
  | cons scope further =>
    rw [outer] at around
    exact ⟨lined.source, lined.ordered, around scope List.mem_cons_self, fun other member => around other (List.mem_cons_of_mem _ member)⟩

end Lining

instance : (lining tokens).Rescopes where
  refuse _ _ := id
  byte _ byte lined := lined.recode (lined.scope.write (lined.source ▸ Array.getElem_mem _) byte)
  patch _ offset byte lined := lined.recode (lined.scope.writeAt offset byte)
  constant _ value lined := lined.recode (lined.scope.addConstant value)
  string _ text lined := lined.recode (lined.scope.addString text)
  capture name := by
    have threads (state : Compilation) : (lining tokens).goes state (state.threaded name) := by
      obtain ⟨chunk, chunks⟩ := thread_chunks name state.scope state.enclosing
      refine fun lined => ⟨lined.source, lined.ordered, chunk.symm ▸ lined.scope, fun outer member => ?_⟩
      have listed := chunks ▸ List.mem_map_of_mem member
      obtain ⟨before, inside, same⟩ := List.mem_map.mp listed
      exact same ▸ lined.enclosing before inside
    exact resolveCapture_obeys threads fun state _ => threads state
  rescope _ _ _ _ lined := ⟨lined.source, lined.ordered, lined.scope, lined.enclosing⟩
  reclass _ _ lined := ⟨lined.source, lined.ordered, lined.scope, lined.enclosing⟩

theorem leaveFunction_lining : (lining tokens).Obeys leaveFunction := by
  intro state
  have listed : (lining tokens).goes state
      (state.closeFunction.recoded (state.closeFunction.scope.chunk.addFunction state.scope.finish)) := fun lined =>
    lined.closeFunction.recode (lined.closeFunction.scope.addFunction ⟨lined.scope.own, lined.scope.inner⟩)
  unfold leaveFunction
  dsimp only
  split
  · exact listed
  · exact (lining tokens).trans listed (emitBytes_goes _ _)

abbrev lined (tokens : Array Token) : Lockstep := alone (Lining tokens)

instance : (lined tokens).Closed := alone_closed fun errors lines ahead => lines.moved ahead errors

theorem lined_nests : (lined tokens).stock.Nests where
  nested phrase follows := by
    refine nested_follows phrase fun paired _ => ⟨lined tokens, follows, ?_, fun paired => ?_, fun broken => ?_⟩
    · exact ⟨congrArg _ paired.1, paired.2.source, paired.2.ordered, paired.2.scope, paired.2.enclosing⟩
    · exact ⟨congrArg _ paired.1, paired.2.source, paired.2.ordered, paired.2.scope, paired.2.enclosing⟩
    · exact ⟨broken.1, congrArg _ broken.2.1, broken.2.2.source, broken.2.2.ordered, broken.2.2.scope, broken.2.2.enclosing⟩
  function kind _ follows := by
    rw [function_eq, function_eq]
    rintro state _ ⟨rfl, lines⟩
    refine .wrapped follows ⟨rfl, lines.source, lines.ordered, Tabled.empty, List.forall_mem_cons.mpr ⟨lines.scope, lines.enclosing⟩⟩
      (fun _ {left right} paired => alone_follows leaveFunction_lining left right paired) fun broken => ?_
    exact ⟨broken.1, congrArg _ broken.2.1, broken.2.2.closeFunction⟩
  recovers := declaration_follows

theorem finalState_lining (closed : Closed tokens) (ordered : Ordered tokens) : Lining tokens (finalState tokens) := by
  have started : Lining tokens (.start tokens) := ⟨Cursor.ofTokens_tokens closed, ordered, .empty, nofun⟩
  have outcome := (lined_nests.within _).program _ _ ⟨rfl, started⟩
  unfold finalState
  cases done : program (.start tokens) <;> rw [done] at outcome <;> cases outcome
  case ok.done paired => exact paired.2
  case error.failed broken => exact broken.2.2

end Compile

theorem compileSource_lined {source : String} (compiled : compileSource source = .ok script) :
    ∃ tokens, scan source = .ok tokens ∧ script.Lined tokens := by
  obtain ⟨tokens, scanned, compiled⟩ := compileSource_ok compiled
  have lines := Compile.finalState_lining (scan_closed scanned) (scan_ordered scanned)
  simp only [compile] at compiled
  split at compiled
  · cases compiled
    exact ⟨tokens, scanned, lines.scope.own, lines.scope.inner⟩
  · cases compiled

theorem Chunk.Lined.lineAt (lined : chunk.Lined tokens) {offset : Nat}
    (inside : offset < chunk.code.size) : ∃ token ∈ tokens, token.span.line = chunk.lineAt offset := by
  have listed : offset < chunk.lines.size := lined.size.symm ▸ inside
  rw [Chunk.lineAt, Array.getElem?_eq_getElem listed]
  exact lined.drawn _ (Array.getElem_mem listed)

/-- Each byte of the code of a compiled script, and of the functions in it, has one line. It is the line of a token of the text,
so it is not zero, and along the code lines do not go back. -/
theorem line_tables_ascend {source : String} {script proto : Proto} (compiled : compileSource source = .ok script)
    (inside : script.Contains proto) : ∃ tokens, scan source = .ok tokens ∧ proto.chunk.lines.size = proto.chunk.code.size ∧
      (∀ line ∈ proto.chunk.lines, 1 ≤ line ∧ ∃ token ∈ tokens, token.span.line = line) ∧
      proto.chunk.lines.toList.Pairwise (· ≤ ·) := by
  obtain ⟨tokens, scanned, lined⟩ := compileSource_lined compiled
  have lines := (lined.contains inside).lines
  refine ⟨tokens, scanned, lines.size, fun line listed => ?_, lines.ascending⟩
  obtain ⟨token, member, rfl⟩ := lines.drawn line listed
  exact ⟨(scan_ordered scanned).lines token member, token, member, rfl⟩

/-- The table of a function on a second line, and on a third the code behind it. -/
theorem line_tables_ascend_function : ∃ script function, compileSource "1;\nfun f() { return 1; }\nprint f;" = .ok script ∧
    script.Contains function ∧ function.name = "f" ∧ function.chunk.lines.size = function.chunk.code.size ∧
      function.chunk.lines.toList.Pairwise (· ≤ ·) := by
  have named : ((compileSource "1;\nfun f() { return 1; }\nprint f;").toOption.map fun script =>
      script.chunk.functions.map (·.name)) = some #["f"] := by decide +kernel
  obtain ⟨script, compiled⟩ := @exists_script "1;\nfun f() { return 1; }\nprint f;" (by decide +kernel)
  rw [compiled] at named
  have names : script.chunk.functions.map (·.name) = #["f"] := Option.some.inj named
  have listed : "f" ∈ script.chunk.functions.map (·.name) := names ▸ Array.mem_singleton.mpr rfl
  obtain ⟨function, member, name⟩ := Array.mem_map.mp listed
  have inside : script.Contains function := .nested .self member
  obtain ⟨-, -, size, -, ascending⟩ := line_tables_ascend compiled inside
  exact ⟨script, function, compiled, inside, name, size, ascending⟩

end StackScript
