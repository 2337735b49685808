import Mathlib.Data.List.DropRight
import StackScript.Proofs.SourcePartition

/-!
Two readings of the same tokens. From a place alone, the line and the column of a token are found again by counting the
characters in front of it. From their texts alone, the tokens are found again: with a space between each two of them, the texts
scan to the same kinds, texts and values.
-/

namespace StackScript

namespace Scan

theorem afterAll_line (here : Position) (text : List Char) : (here.afterAll text).line = here.line + text.count '\n' := by
  induction text generalizing here with
  | nil => rfl
  | cons c text ih =>
    have moved := ih (here.after c)
    by_cases newline : c = '\n'
    · simp only [Position.after, newline, if_true] at moved
      simp only [newline, Position.afterAll, List.foldl_cons, Position.after, if_true, List.count_cons_self]
      exact moved.trans (Nat.add_right_comm _ _ _)
    · simp only [Position.after, newline, if_false] at moved
      simpa [newline, Position.afterAll, Position.after] using moved

theorem afterAll_column (text : List Char) :
    (Position.start.afterAll text).column = 1 + (text.rtakeWhile (· != '\n')).length := by
  -- The last character decides whether its line goes on or a new one begins.
  induction text using List.reverseRecOn with
  | nil => rfl
  | append_singleton text c ih =>
    rw [afterAll_append]
    by_cases newline : c = '\n'
    · simp [newline, Position.afterAll, Position.after]
    · simp only [Position.afterAll, List.foldl_cons, List.foldl_nil, Position.after, newline, if_false]
      rw [List.rtakeWhile_concat_pos (· != '\n') text c (bne_iff_ne.mpr newline), List.length_append]
      exact congrArg (· + 1) ih

end Scan

/-- The region starts behind some characters of the text. Its line is found by counting the newlines among them, its column by
counting the characters behind the last newline. -/
def Span.IsExact (source : String) (span : Span) : Prop :=
  ∃ before after, source.toList = before ++ after ∧ span.start = (String.ofList before).utf8ByteSize ∧
    span.line = 1 + before.count '\n' ∧ span.column = 1 + (before.rtakeWhile (· != '\n')).length

theorem Span.isExact {source : String} {span : Span} {before after : List Char} (whole : source.toList = before ++ after)
    (start : span.start = (Position.start.afterAll before).offset) (line : span.line = (Position.start.afterAll before).line)
    (column : span.column = (Position.start.afterAll before).column) : span.IsExact source := by
  rw [Scan.afterAll_offset, Position.start, Nat.zero_add] at start
  exact ⟨before, after, whole, start, line.trans (Scan.afterAll_line _ _), column.trans (Scan.afterAll_column _)⟩

/-- All tokens of a text, its end included, and the error of a text that cannot be scanned are where they say. -/
theorem scan_places_exact (source : String) :
    (∀ tokens, scan source = .ok tokens → ∀ token ∈ tokens, token.span.IsExact source) ∧
      ∀ error, scan source = .error error → error.span.IsExact source := by
  obtain ⟨pieces, last, left, takes, outcome⟩ := Scan.scanFrom_takes .start source.toList #[]
  have whole := takes.text_eq
  constructor
  · intro tokens done token member
    rw [show Scan.scanFrom .start source.toList #[] = _ from done] at outcome
    rw [← Array.mem_toList_iff, outcome.2, Array.toList_empty, List.nil_append] at member
    rcases List.mem_append.mp member with inside | atEnd
    · obtain ⟨piece, listed, rfl⟩ := List.mem_map.mp inside
      obtain ⟨before, after, split⟩ := List.append_of_mem listed
      have span := (takes.placed split).span
      have parts : source.toList = (Scan.spelled before ++ piece.1) ++
          (piece.2.lexeme.toList ++ Scan.spelled after ++ last ++ left) := by
        rw [whole, split]
        simp [Scan.spelled]
      exact Span.isExact parts (by rw [span]; rfl) (by rw [span]; rfl) (by rw [span]; rfl)
    · obtain rfl := List.mem_singleton.mp atEnd
      exact Span.isExact (List.append_nil _).symm rfl rfl rfl
  · intro error failed
    rw [show Scan.scanFrom .start source.toList #[] = _ from failed] at outcome
    obtain ⟨text, span⟩ := outcome
    exact Span.isExact whole (by rw [span]; rfl) (by rw [span]; rfl) (by rw [span]; rfl)

/-- A name behind a string with two lines, and a character that begins no token behind a comment. -/
theorem scan_places_exact_string :
    (∃ tokens, scan "\"é\nb\" x" = .ok tokens ∧ ∀ token ∈ tokens, token.span.IsExact "\"é\nb\" x") ∧
      ∃ error, scan "// é\r\n\t@" = .error error ∧ error.span.IsExact "// é\r\n\t@" := by
  constructor
  · have scanned : (scan "\"é\nb\" x").toOption.isSome = true := by decide +kernel
    cases done : scan "\"é\nb\" x" with
    | error error => simp [done, Except.toOption] at scanned
    | ok tokens => exact ⟨tokens, rfl, (scan_places_exact _).1 tokens done⟩
  · have failed : (scan "// é\r\n\t@").toOption.isNone = true := by decide +kernel
    cases done : scan "// é\r\n\t@" with
    | ok tokens => simp [done, Except.toOption] at failed
    | error error => exact ⟨error, rfl, (scan_places_exact _).2 error done⟩

namespace Scan

/-- The texts of tokens, a space between each two of them and the gap in front of the first. -/
def spaced (gap : List Char) : List Token → List Char
  | [] => []
  | token :: further => gap ++ (token.lexeme.toList ++ spaced [' '] further)

theorem spaced_intercalate (tokens : List Token) :
    (" ".intercalate (tokens.map Token.lexeme)).toList = spaced [] tokens := by
  have behind (token : Token) (further : List Token) :
      [' '].intercalate ((token :: further).map fun token => token.lexeme.toList) =
        token.lexeme.toList ++ spaced [' '] further := by
    induction further generalizing token with
    | nil => simp [spaced]
    | cons next further ih => simpa [spaced, List.intercalate, List.intersperse] using ih next
  rw [String.toList_intercalate, List.map_map]
  cases tokens with
  | nil => rfl
  | cons token further => exact behind token further

theorem Ends.of_space {kind : Kind} {lexeme rest : List Char} (space : ∀ c, rest.head? = some c → c = ' ') :
    Ends kind lexeme rest := by
  unfold Ends
  split
  · exact fun found => by cases space _ found
  · exact fun found => by cases space _ found
  · exact fun found => by cases space _ found
  · exact fun found => by cases space _ found
  · refine ⟨fun c found => ?_, fun _ c tail same => ?_⟩
    · rw [space c found]
      rfl
    · rw [same] at space
      cases space _ rfl
  · exact fun c found => by rw [space c found]; rfl
  · exact fun c found => by rw [space c found]; rfl
  · trivial

theorem Stops.respace {first : Char} {more rest other : List Char} (stops : Stops (first :: (more ++ rest)))
    (space : ∀ c, other.head? = some c → c = ' ') : Stops (first :: (more ++ other)) := by
  intro c tail same
  cases same
  obtain ⟨gap, comment⟩ := stops first _ rfl
  refine ⟨gap, ?_⟩
  cases more with
  | cons second more => exact comment
  | nil =>
    cases other with
    | nil => simp
    | cons c other =>
      obtain rfl := space c rfl
      simp

def content (token : Token) : Kind × String × Option Literal :=
  (token.kind, token.lexeme, token.literal)

theorem Takes.respaced {here : Position} {text last left : List Char} {pieces : List Piece} (takes : Takes here text pieces last left)
    (there : Position) {gap : List Char} (filler : Filler false false gap) : ∃ again : List Piece,
      Takes there (spaced gap (pieces.map Prod.snd)) again [] [] ∧
        again.map (content ·.2) = pieces.map (content ·.2) := by
  induction takes generalizing there gap with
  | done => exact ⟨[], @Takes.done there [] [] .nil (fun c rest same => by cases same), rfl⟩
  | @token _ _ more _ _ _ first kind literal pieces _ stops lexeme _ _ ih =>
    obtain ⟨again, taken, same⟩ :=
      ih ((there.afterAll gap).afterAll (first :: more)) (.blank (c := ' ') rfl .nil)
    have space : ∀ c, (spaced [' '] (pieces.map Prod.snd)).head? = some c → c = ' ' := by
      intro c found
      cases pieces with
      | nil => cases found
      | cons piece pieces =>
        cases found
        rfl
    have whole := Takes.token filler (stops.respace space) lexeme (.of_space space) taken
    refine ⟨(gap, ⟨kind, String.ofList (first :: more), literal, (there.afterAll gap).spanOf (first :: more)⟩) :: again, ?_,
      congrArg (List.cons (kind, String.ofList (first :: more), literal)) same⟩
    simpa only [spaced, List.map_cons, String.toList_ofList, List.cons_append] using whole

end Scan

/-- The texts of the tokens of a source, joined by single spaces, scan to tokens of the same kinds, texts and values. -/
theorem scan_respelled (source : String) (tokens : Array Token) (scanned : scan source = .ok tokens) :
    ∃ again, scan (" ".intercalate (tokens.toList.dropLast.map Token.lexeme)) = .ok again ∧
      again.toList.map Scan.content = tokens.toList.map Scan.content := by
  obtain ⟨pieces, last, left, takes, outcome⟩ := Scan.scanFrom_takes .start source.toList #[]
  rw [show Scan.scanFrom .start source.toList #[] = _ from scanned] at outcome
  obtain ⟨-, tokens_eq⟩ := outcome
  obtain ⟨again, taken, same⟩ := takes.respaced .start .nil
  have joined : (" ".intercalate (tokens.toList.dropLast.map Token.lexeme)).toList =
      Scan.spaced [] (pieces.map Prod.snd) := by
    rw [Scan.spaced_intercalate, tokens_eq]
    simp
  refine ⟨_, (congrArg (Scan.scanFrom .start · #[]) joined).trans (taken.scanFrom_eq #[]), ?_⟩
  simpa [tokens_eq, Scan.content, Token.endOfText, Function.comp_def] using same

/-- Marks that would be longer tokens, and a comment, if they stood together. -/
theorem scan_respelled_marks :
    ∃ tokens again, scan "/ /= = 1 .5//\n\"//\n\"" = .ok tokens ∧ tokens.size = 9 ∧
      scan (" ".intercalate (tokens.toList.dropLast.map Token.lexeme)) = .ok again ∧
      again.toList.map Scan.content = tokens.toList.map Scan.content := by
  have scanned : (scan "/ /= = 1 .5//\n\"//\n\"").toOption.map Array.size = some 9 := by decide +kernel
  cases done : scan "/ /= = 1 .5//\n\"//\n\"" with
  | error error => simp [done, Except.toOption] at scanned
  | ok tokens =>
    obtain ⟨again, found, same⟩ := scan_respelled _ tokens done
    exact ⟨tokens, again, rfl, by simpa [done, Except.toOption] using scanned, found, same⟩

end StackScript
