import Mathlib.Data.List.TakeDrop
import StackScript.Proofs.TokenPlaces

/-!
A source text is its tokens and what stands between them. Between tokens there are only blanks and comments, every token has
the text of its kind, and none could be longer. Where a text cannot be read on, the part in front of that place can be read.
-/

namespace StackScript

namespace Scan

def wordKind (word : List Char) : Kind :=
  match Keyword.ofText? (String.ofList word) with
  | some keyword => .keyword keyword
  | none => .identifier

/-- The texts of tokens: the first character, and those behind it. -/
inductive Lexeme : Kind → Option Literal → Char → List Char → Prop where
  | punctuation {kind : Kind} {first : Char} (mark : punctuation? first = some kind) : Lexeme kind none first []
  | alone {alone withEqual : Kind} {first : Char} (operator : operator? first = some (alone, withEqual)) : Lexeme alone none first []
  | withEqual {alone withEqual : Kind} {first : Char} (operator : operator? first = some (alone, withEqual)) :
      Lexeme withEqual none first ['=']
  | string {body : List Char} (plain : ∀ c ∈ body, c ≠ '"') :
      Lexeme .string (some (.text (String.ofList body))) '"' (body ++ ['"'])
  | whole {first : Char} {digits : List Char} {value : Float} (starts : first.isDigit = true) (all : ∀ c ∈ digits, c.isDigit = true)
      (reads : Decimal.read? (first :: digits) = some value) : Lexeme .number (some (.number value)) first digits
  | fraction {first digit : Char} {digits further : List Char} {value : Float} (starts : first.isDigit = true)
      (all : ∀ c ∈ digits, c.isDigit = true) (behind : ∀ c ∈ digit :: further, c.isDigit = true)
      (reads : Decimal.read? (first :: (digits ++ '.' :: digit :: further)) = some value) :
      Lexeme .number (some (.number value)) first (digits ++ '.' :: digit :: further)
  | word {first : Char} {more : List Char} (starts : startsWord first = true) (all : ∀ c ∈ more, continuesWord c = true) :
      Lexeme (wordKind (first :: more)) none first more

/-- A token with this text cannot be longer in front of the rest. -/
def Ends (kind : Kind) (lexeme rest : List Char) : Prop :=
  match kind with
  | .bang | .equal | .less | .greater => rest.head? ≠ some '='
  | .number => (∀ c, rest.head? = some c → c.isDigit = false) ∧
      ('.' ∉ lexeme → ∀ c tail, rest = '.' :: c :: tail → c.isDigit = false)
  | .identifier | .keyword _ => ∀ c, rest.head? = some c → continuesWord c = false
  | _ => True

theorem Ends.cut {kind : Kind} {lexeme front rest : List Char} (ends : Ends kind lexeme (front ++ rest)) : Ends kind lexeme front := by
  have head {c : Char} (found : front.head? = some c) : (front ++ rest).head? = some c := by
    simp [List.head?_append, found]
  unfold Ends at *
  split at ends
  · exact fun found => ends (head found)
  · exact fun found => ends (head found)
  · exact fun found => ends (head found)
  · exact fun found => ends (head found)
  · refine ⟨fun c found => ends.1 c (head found), fun whole c tail same => ends.2 whole c (tail ++ rest) ?_⟩
    rw [same]
    rfl
  · exact fun c found => ends c (head found)
  · exact fun c found => ends c (head found)
  · trivial

theorem span_eq {p : Char → Bool} {part rest : List Char} (all : ∀ c ∈ part, p c = true)
    (stops : ∀ c, rest.head? = some c → p c = false) :
    (part ++ rest).takeWhile p = part ∧ (part ++ rest).dropWhile p = rest := by
  have none : rest.takeWhile p = [] ∧ rest.dropWhile p = rest := by
    cases rest with
    | nil => simp
    | cons c rest => simp [stops c rfl]
  rw [List.takeWhile_append_of_pos all, List.dropWhile_append_of_pos all, none.1, none.2, List.append_nil]
  exact ⟨rfl, rfl⟩

theorem span_stops (p : Char → Bool) (text : List Char) :
    (∀ c ∈ text.takeWhile p, p c = true) ∧ ∀ c, (text.dropWhile p).head? = some c → p c = false := by
  induction text with
  | nil => simp
  | cons c text ih =>
    by_cases holds : p c = true
    · simpa [holds] using ih
    · simp [holds]

def signs : List Char :=
  ['(', ')', '\x7b', '\x7d', ',', '.', '-', '+', ';', '/', '*', '!', '=', '<', '>', '"']

theorem apart {p : Char → Bool} {first : Char} (starts : p first = true) (others : signs.any p = false) :
    punctuation? first = none ∧ operator? first = none ∧ (first == '"') = false := by
  have other {c : Char} (member : c ∈ signs) : first ≠ c := by
    rintro rfl
    exact absurd starts (List.any_eq_false.mp others first member)
  refine ⟨?_, ?_, beq_false_of_ne (other (by simp [signs]))⟩
  · unfold punctuation?
    split <;> first | rfl | exact absurd rfl (other (by simp [signs]))
  · unfold operator?
    split <;> first | rfl | exact absurd rfl (other (by simp [signs]))

theorem startsWord_isDigit {first : Char} (starts : startsWord first = true) : first.isDigit = false := by
  cases digit : first.isDigit with
  | false => rfl
  | true =>
    have range : 48 ≤ first.toNat ∧ first.toNat ≤ 57 := by
      simpa [Char.isDigit, UInt32.le_iff_toNat_le] using digit
    have none : ∀ i : Fin 10, startsWord (Char.ofNat (48 + i)) = false := by decide
    have same : first = Char.ofNat (48 + (first.toNat - 48)) := by rw [Nat.add_sub_cancel' range.1, Char.ofNat_toNat]
    rw [same] at starts
    cases starts.symm.trans (none ⟨first.toNat - 48, by omega⟩)

theorem munch_ok {first : Char} {text : List Char} {taken : Munch} (ok : munch first text = .ok taken) :
    Lexeme taken.kind taken.literal first taken.more ∧ Ends taken.kind (first :: taken.more) taken.rest := by
  unfold munch at ok
  split at ok
  · next kind mark =>
    cases ok
    refine ⟨.punctuation mark, ?_⟩
    unfold punctuation? at mark
    split at mark <;> cases mark <;> trivial
  split at ok
  · next alone withEqual operator =>
    cases ok
    unfold munchOperator
    split
    · refine ⟨.withEqual operator, ?_⟩
      unfold operator? at operator
      split at operator <;> cases operator <;> trivial
    · next other =>
      have stops : text.head? ≠ some '=' := by
        intro found
        cases text with
        | nil => cases found
        | cons c text =>
          cases found
          exact other text rfl
      refine ⟨.alone operator, ?_⟩
      unfold operator? at operator
      split at operator <;> cases operator <;> exact stops
  split at ok
  · next isQuote =>
    obtain rfl := beq_iff_eq.mp isQuote
    unfold munchString at ok
    have parts := span_stops (· != '"') text
    split at ok
    · cases ok
    · next quote rest found =>
      cases ok
      rw [found] at parts
      obtain rfl : quote = '"' := by simpa using parts.2 quote rfl
      exact ⟨.string (by simpa using parts.1), trivial⟩
  split at ok
  · next digit =>
    unfold munchNumber munchDigits at ok
    -- A point belongs to the number only if a digit comes behind it.
    have parts := span_stops Char.isDigit text
    split at ok
    next more rest found =>
    split at ok
    · next value reads =>
      cases ok
      split at found
      · next point behind tail after =>
        rw [after] at parts
        split at found
        · next isDigit =>
          cases found
          have further := span_stops Char.isDigit tail
          refine ⟨.fraction digit parts.1 ?_ reads, further.2, fun whole => absurd ?_ whole⟩
          · simpa [isDigit] using further.1
          · simp
        · next notDigit =>
          cases found
          refine ⟨.whole digit parts.1 reads, parts.2, fun _ c tail same => ?_⟩
          cases same
          exact eq_false_of_ne_true notDigit
      · next other =>
        cases found
        refine ⟨.whole digit parts.1 reads, parts.2, fun _ c tail same => ?_⟩
        exact absurd same (other c tail)
    · cases ok
  split at ok
  · next starts =>
    cases ok
    have parts := span_stops continuesWord text
    refine ⟨.word starts parts.1, ?_⟩
    change Ends (wordKind _) _ _
    unfold wordKind
    split <;> exact parts.2
  · cases ok

theorem munchDigits_whole {digits rest : List Char} (all : ∀ c ∈ digits, c.isDigit = true)
    (stops : ∀ c, rest.head? = some c → c.isDigit = false)
    (noFraction : ∀ c tail, rest = '.' :: c :: tail → c.isDigit = false) : munchDigits (digits ++ rest) = (digits, rest) := by
  have parts := span_eq all stops
  unfold munchDigits
  rw [parts.1, parts.2]
  split
  · next digit tail => simp [noFraction digit tail rfl]
  · rfl

theorem munchDigits_fraction {digits further rest : List Char} {digit : Char} (all : ∀ c ∈ digits, c.isDigit = true)
    (behind : ∀ c ∈ digit :: further, c.isDigit = true) (stops : ∀ c, rest.head? = some c → c.isDigit = false) :
    munchDigits (digits ++ '.' :: digit :: further ++ rest) = (digits ++ '.' :: digit :: further, rest) := by
  have front := @span_eq Char.isDigit digits ('.' :: digit :: (further ++ rest)) all (by simp)
  have back := span_eq (fun c member => behind c (List.mem_cons_of_mem _ member)) stops
  unfold munchDigits
  rw [List.append_assoc, List.cons_append, List.cons_append, front.1, front.2]
  simp only [behind digit List.mem_cons_self, if_true, back.1, back.2]

theorem Lexeme.munch_eq {kind : Kind} {literal : Option Literal} {first : Char} {more rest : List Char}
    (lexeme : Lexeme kind literal first more) (ends : Ends kind (first :: more) rest) :
    munch first (more ++ rest) = .ok ⟨kind, literal, more, rest⟩ := by
  cases lexeme with
  | punctuation mark => simp only [munch, mark, List.nil_append]
  | @alone alone withEqual _ operator =>
    have marks : punctuation? first = none := by
      unfold operator? at operator
      split at operator <;> first | rfl | cases operator
    have stops : rest.head? ≠ some '=' := by
      unfold operator? at operator
      split at operator <;> cases operator <;> exact ends
    simp only [munch, marks, operator, List.nil_append, munchOperator]
    split
    · exact absurd rfl stops
    · rfl
  | withEqual operator =>
    have marks : punctuation? first = none := by
      unfold operator? at operator
      split at operator <;> first | rfl | cases operator
    simp only [munch, marks, operator, List.cons_append, munchOperator, List.nil_append]
  | @string body plain =>
    have parts := @span_eq (· != '"') body ('"' :: rest) (by simpa using plain) (by simp)
    simp only [munch, munchString, List.append_assoc, List.singleton_append, parts.1, parts.2]
    rfl
  | @whole _ _ value starts all reads =>
    obtain ⟨marks, operators, quote⟩ := apart starts rfl
    have digits := munchDigits_whole all ends.1 fun c tail same => ends.2 ?_ c tail same
    · simp only [munch, marks, operators, quote, starts, munchNumber, digits, reads, if_true, Bool.false_eq_true, if_false]
    · intro point
      rcases List.mem_cons.mp point with rfl | inside
      · cases starts
      · cases all _ inside
  | @fraction _ digit digits further value starts all behind reads =>
    obtain ⟨marks, operators, quote⟩ := apart starts rfl
    have digits := munchDigits_fraction all behind ends.1
    simp only [munch, marks, operators, quote, starts, munchNumber, digits, reads, if_true, Bool.false_eq_true, if_false]
  | word starts all =>
    obtain ⟨marks, operators, quote⟩ := apart starts rfl
    have digit := startsWord_isDigit starts
    have stops : ∀ c, rest.head? = some c → continuesWord c = false := by
      unfold wordKind at ends
      split at ends <;> exact ends
    have parts := span_eq all stops
    simp only [munch, marks, operators, quote, digit, starts, munchWord, parts.1, parts.2, if_true, Bool.false_eq_true, if_false]
    rfl

/-- Blanks and comments. A comment ends with its line; only the last one of a text may reach the end of the text instead. -/
inductive Filler (isLast : Bool) : (inComment : Bool) → List Char → Prop where
  | nil : Filler isLast false []
  | blank {c : Char} {rest : List Char} (gap : isGap c = true) (further : Filler isLast false rest) : Filler isLast false (c :: rest)
  | opens {rest : List Char} (comment : Filler isLast true ('/' :: rest)) : Filler isLast false ('/' :: '/' :: rest)
  | inside {c : Char} {rest : List Char} (other : c ≠ '\n') (further : Filler isLast true rest) : Filler isLast true (c :: rest)
  | ends {rest : List Char} (further : Filler isLast false rest) : Filler isLast true ('\n' :: rest)
  | stays (last : isLast = true) : Filler isLast true []

/-- The text is over or goes on with a token. -/
def Stops (text : List Char) : Prop :=
  ∀ c rest, text = c :: rest → isGap c = false ∧ (c == '/' && rest.head? == some '/') = false

theorem Stops.cut {front rest : List Char} (stops : Stops (front ++ rest)) : Stops front := by
  rintro c tail rfl
  obtain ⟨gap, comment⟩ := stops c (tail ++ rest) rfl
  refine ⟨gap, ?_⟩
  cases tail with
  | nil => simp
  | cons d tail => exact comment

theorem Filler.last {isLast inComment : Bool} {gap : List Char} (filler : Filler isLast inComment gap) : Filler true inComment gap := by
  induction filler with
  | nil => exact .nil
  | blank gap _ ih => exact .blank gap ih
  | opens _ ih => exact .opens ih
  | inside other _ ih => exact .inside other ih
  | ends _ ih => exact .ends ih
  | stays _ => exact .stays rfl

theorem Filler.skip_eq {isLast inComment : Bool} {gap rest : List Char} (filler : Filler isLast inComment gap) (here : Position)
    (last : isLast = true → rest = []) (stops : Stops rest) : skip inComment here (gap ++ rest) = (here.afterAll gap, rest) := by
  induction filler generalizing here with
  | nil =>
    cases rest with
    | nil => rfl
    | cons c rest =>
      obtain ⟨gap, comment⟩ := stops c rest rfl
      simp only [List.nil_append, skip, gap, comment, Bool.false_eq_true, if_false]
      rfl
  | @blank c _ gap _ ih =>
    simp only [List.cons_append, skip, gap, if_true]
    exact ih (here.after c)
  | opens _ ih => exact ih (here.after '/')
  | @inside c _ other _ ih =>
    simp only [List.cons_append, skip, bne_iff_ne.mpr other]
    exact ih (here.after c)
  | ends _ ih => exact ih (here.after '\n')
  | stays isLast =>
    rw [last isLast]
    rfl

theorem skip_filler {inComment : Bool} {here place : Position} {text rest : List Char}
    (skipped : skip inComment here text = (place, rest)) :
    ∃ gap, text = gap ++ rest ∧ place = here.afterAll gap ∧ Filler rest.isEmpty inComment gap ∧ Stops rest := by
  fun_induction skip inComment here text with
  | case1 inComment here =>
    cases skipped
    refine ⟨[], rfl, rfl, ?_, fun c rest same => by cases same⟩
    cases inComment with
    | false => exact .nil
    | true => exact .stays rfl
  | case2 here c text ih =>
    obtain ⟨gap, rfl, rfl, filler, stops⟩ := ih skipped
    refine ⟨c :: gap, rfl, rfl, ?_, stops⟩
    by_cases newline : c = '\n'
    · subst newline
      exact .ends filler
    · rw [bne_iff_ne.mpr newline] at filler
      exact .inside newline filler
  | case3 here c text gap ih =>
    obtain ⟨blanks, rfl, rfl, filler, stops⟩ := ih skipped
    exact ⟨c :: blanks, rfl, rfl, .blank gap filler, stops⟩
  | case4 here c text _ comment ih =>
    obtain ⟨blanks, rfl, rfl, filler, stops⟩ := ih skipped
    obtain ⟨isSlash, again⟩ := Bool.and_eq_true_iff.mp comment
    obtain rfl := beq_iff_eq.mp isSlash
    refine ⟨'/' :: blanks, rfl, rfl, ?_, stops⟩
    -- The second slash belongs to the comment.
    cases blanks with
    | nil =>
      cases filler with
      | stays last =>
        rw [List.isEmpty_iff.mp last] at again
        cases again
    | cons d blanks =>
      obtain rfl : d = '/' := by simpa using again
      exact .opens filler
  | case5 here c text notGap notComment =>
    cases skipped
    refine ⟨[], rfl, rfl, .nil, fun d rest same => ?_⟩
    cases same
    exact ⟨eq_false_of_ne_true notGap, eq_false_of_ne_true notComment⟩

/-- A token with the blanks and comments in front of it. -/
abbrev Piece := List Char × Token

def spelled (pieces : List Piece) : List Char :=
  pieces.flatMap fun piece => piece.1 ++ piece.2.lexeme.toList

/-- From the front of a text that starts here the pieces are read, then `last` is passed over, and `left` is left. -/
inductive Takes : Position → List Char → List Piece → List Char → List Char → Prop where
  | done {here : Position} {last left : List Char} (filler : Filler left.isEmpty false last) (stops : Stops left) :
      Takes here (last ++ left) [] last left
  | token {here : Position} {gap more rest last left : List Char} {first : Char} {kind : Kind} {literal : Option Literal}
      {pieces : List Piece} (filler : Filler false false gap) (stops : Stops (first :: (more ++ rest)))
      (lexeme : Lexeme kind literal first more) (ends : Ends kind (first :: more) rest)
      (further : Takes ((here.afterAll gap).afterAll (first :: more)) rest pieces last left) :
      Takes here (gap ++ first :: (more ++ rest))
        ((gap, ⟨kind, String.ofList (first :: more), literal, (here.afterAll gap).spanOf (first :: more)⟩) :: pieces) last left

theorem afterAll_append (here : Position) (one two : List Char) : here.afterAll (one ++ two) = (here.afterAll one).afterAll two :=
  List.foldl_append

namespace Takes

variable {here : Position} {text last left : List Char} {pieces : List Piece}

theorem text_eq (takes : Takes here text pieces last left) : text = spelled pieces ++ last ++ left := by
  induction takes with
  | done => rfl
  | token _ _ _ _ _ ih => simp [ih, spelled, List.append_assoc]

theorem filler (takes : Takes here text pieces last left) : Filler left.isEmpty false last := by
  induction takes with
  | done filler => exact filler
  | token _ _ _ _ _ ih => exact ih

theorem cut (takes : Takes here text pieces last left) : Takes here (spelled pieces ++ last) pieces last [] := by
  induction takes with
  | @done here last left filler stops =>
    have whole : Takes here (last ++ []) [] last [] := .done filler.last fun c rest same => by cases same
    rwa [List.append_nil] at whole
  | @token here gap more rest last left first kind literal pieces filler stops lexeme ends further ih =>
    have rest_eq := further.text_eq
    rw [rest_eq] at stops ends
    rw [← List.append_assoc, ← List.cons_append] at stops
    have whole := Takes.token filler stops.cut lexeme ends.cut ih
    simpa [spelled, List.append_assoc] using whole

theorem scanFrom_eq (takes : Takes here text pieces last []) (scanned : Array Token) :
    scanFrom here text scanned = .ok (scanned ++ (pieces.map Prod.snd ++
      [Token.endOfText (here.afterAll text).offset (here.afterAll text).line (here.afterAll text).column]).toArray) := by
  generalize nothing : ([] : List Char) = left at takes
  induction takes generalizing scanned with
  | @done here last left filler stops =>
    subst nothing
    have skipped := filler.skip_eq here (fun _ => rfl) stops
    rw [scanFrom]
    split
    · next found =>
      cases skipped.symm.trans found
      simp
    · next found => cases skipped.symm.trans found
  | @token here gap more rest last left first kind literal pieces filler stops lexeme ends further ih =>
    have skipped := filler.skip_eq here (fun no => by cases no) stops
    rw [scanFrom]
    split
    · next found => cases skipped.symm.trans found
    · next found =>
      cases skipped.symm.trans found
      have munched := lexeme.munch_eq ends
      split
      · next failed => cases munched.symm.trans failed
      · next taken =>
        cases munched.symm.trans taken
        rw [ih _ nothing, ← afterAll_append, ← afterAll_append]
        simp

end Takes

theorem scanFrom_takes (here : Position) (text : List Char) (scanned : Array Token) : ∃ pieces last left,
    Takes here text pieces last left ∧ match scanFrom here text scanned with
      | .ok tokens => left = [] ∧ tokens.toList = scanned.toList ++ pieces.map Prod.snd ++
          [Token.endOfText (here.afterAll text).offset (here.afterAll text).line (here.afterAll text).column]
      | .error error => ∃ text, error.span = (here.afterAll (spelled pieces ++ last)).spanOf text := by
  fun_induction scanFrom here text scanned with
  | case1 here text scanned place skipped =>
    obtain ⟨gap, rfl, rfl, filler, stops⟩ := skip_filler skipped
    exact ⟨[], gap, [], .done filler stops, rfl, by simp⟩
  | case2 here text scanned place first rest skipped fault failed =>
    obtain ⟨gap, rfl, rfl, filler, stops⟩ := skip_filler skipped
    exact ⟨[], gap, first :: rest, .done filler stops, _, rfl⟩
  | case3 here text scanned place first rest skipped token taken lexeme ih =>
    obtain ⟨gap, rfl, rfl, filler, stops⟩ := skip_filler skipped
    obtain ⟨shape, ends⟩ := munch_ok taken
    obtain rfl := munch_append taken
    obtain ⟨pieces, last, left, takes, outcome⟩ := ih
    refine ⟨_, last, left, .token filler stops shape ends takes, ?_⟩
    have whole (tail : List Char) : here.afterAll (gap ++ first :: (token.more ++ tail)) =
        ((here.afterAll gap).afterAll (first :: token.more)).afterAll tail := by
      rw [← afterAll_append, ← afterAll_append]
      rfl
    split at outcome
    · refine ⟨outcome.1, ?_⟩
      rw [outcome.2, whole]
      simp [lexeme]
    · obtain ⟨text, span⟩ := outcome
      refine ⟨text, ?_⟩
      rw [span, ← whole]
      simp [spelled, List.append_assoc]

/-- A token in its place: blanks and comments in front of it, the text of its kind, and nothing behind it that would make it
longer. -/
structure Placed (here : Position) (before : List Char) (piece : Piece) (after : List Char) : Prop where
  filler : Filler false false piece.1
  span : piece.2.span = (here.afterAll (before ++ piece.1)).spanOf piece.2.lexeme.toList
  lexeme : ∃ first more, piece.2.lexeme = String.ofList (first :: more) ∧ Lexeme piece.2.kind piece.2.literal first more
  ends : Ends piece.2.kind piece.2.lexeme.toList after

theorem Takes.placed {here : Position} {text last left : List Char} {pieces : List Piece} (takes : Takes here text pieces last left)
    {before after : List Piece} {piece : Piece} (split : pieces = before ++ piece :: after) :
    Placed here (spelled before) piece (spelled after ++ last ++ left) := by
  induction takes generalizing before with
  | done => simp at split
  | @token here gap more rest last left first kind literal pieces filler stops lexeme ends further ih =>
    cases before with
    | nil =>
      cases split
      rw [further.text_eq] at ends
      exact ⟨filler, by simp [spelled], ⟨first, more, rfl, lexeme⟩, by simpa using ends⟩
    | cons front before =>
      cases split
      have placed := ih rfl
      refine ⟨placed.filler, ?_, placed.lexeme, placed.ends⟩
      rw [placed.span, ← afterAll_append, ← afterAll_append]
      simp [spelled, List.append_assoc]

theorem Takes.ordered {here : Position} {text last left : List Char} {pieces : List Piece} (takes : Takes here text pieces last left) :
    (∀ piece ∈ pieces, here.offset ≤ piece.2.span.start ∧ piece.2.span.stop ≤ (here.afterAll text).offset) ∧
      pieces.Pairwise fun one two => one.2.span.stop ≤ two.2.span.start := by
  induction takes with
  | done => simp
  | @token here gap more rest _ _ first _ _ _ _ _ _ _ _ ih =>
    have front := Position.UpTo.afterAll here gap
    have through := Position.UpTo.afterAll (here.afterAll gap) (first :: more)
    have behind := Position.UpTo.afterAll ((here.afterAll gap).afterAll (first :: more)) rest
    have whole : here.afterAll (gap ++ first :: (more ++ rest)) =
        ((here.afterAll gap).afterAll (first :: more)).afterAll rest := by
      rw [← afterAll_append, ← afterAll_append]
      rfl
    rw [whole]
    refine ⟨fun piece member => ?_, List.pairwise_cons.mpr ⟨fun piece member => (ih.1 piece member).1, ih.2⟩⟩
    rcases List.mem_cons.mp member with rfl | further
    · exact ⟨front.offset, behind.offset⟩
    · obtain ⟨start, stop⟩ := ih.1 piece further
      exact ⟨Nat.le_trans (front.trans through).offset start, stop⟩

theorem afterAll_offset (here : Position) (text : List Char) :
    (here.afterAll text).offset = here.offset + (String.ofList text).utf8ByteSize := by
  induction text generalizing here with
  | nil => rfl
  | cons c text ih =>
    have moved : (here.after c).offset = here.offset + c.utf8Size := by
      unfold Position.after
      split <;> rfl
    rw [String.ofList_cons, String.utf8ByteSize_append, String.utf8ByteSize_singleton, ← Nat.add_assoc, ← moved]
    exact ih (here.after c)

/-- The tokens of the kind all have the same text. -/
def isMark : Kind → Bool
  | .identifier | .string | .number | .keyword _ | .eof => false
  | _ => true

/-- The text looks like a name. -/
def IsWord (text : List Char) : Prop :=
  ∃ first more, text = first :: more ∧ startsWord first = true ∧ ∀ c ∈ more, continuesWord c = true

theorem keyword_isWord (word : Keyword) : IsWord word.text.toList ∧ wordKind word.text.toList = .keyword word := by
  constructor
  · cases word <;> exact ⟨_, _, rfl, rfl, List.all_eq_true.mp rfl⟩
  · cases word <;> rfl

namespace Lexeme

variable {kind : Kind} {literal : Option Literal} {first : Char} {more : List Char}

theorem sorts (lexeme : Lexeme kind literal first more) : isMark kind = true ∨ kind = .number ∨
    (kind = .string ∧ ∃ body, first :: more = '"' :: (body ++ ['"']) ∧ literal = some (.text (String.ofList body))) ∨
      kind = wordKind (first :: more) := by
  cases lexeme with
  | punctuation mark =>
    left
    unfold punctuation? at mark
    split at mark <;> cases mark <;> rfl
  | alone operator | withEqual operator =>
    left
    unfold operator? at operator
    split at operator <;> cases operator <;> rfl
  | string => exact .inr (.inr (.inl ⟨rfl, _, rfl, rfl⟩))
  | whole | fraction => exact .inr (.inl rfl)
  | word => exact .inr (.inr (.inr rfl))

theorem kind_ne_eof (lexeme : Lexeme kind literal first more) : kind ≠ .eof := by
  rcases lexeme.sorts with mark | rfl | ⟨rfl, -⟩ | rfl
  · rintro rfl
    cases mark
  · simp
  · simp
  · unfold wordKind
    split <;> simp

theorem string_body (lexeme : Lexeme .string literal first more) :
    ∃ body, first :: more = '"' :: (body ++ ['"']) ∧ literal = some (.text (String.ofList body)) := by
  rcases lexeme.sorts with mark | number | ⟨-, found⟩ | word
  · cases mark
  · cases number
  · exact found
  · unfold wordKind at word
    split at word <;> cases word

theorem keyword_text {word : Keyword} (lexeme : Lexeme (.keyword word) literal first more) : String.ofList (first :: more) = word.text := by
  rcases lexeme.sorts with mark | number | ⟨string, -⟩ | isWord
  · cases mark
  · cases number
  · cases string
  · unfold wordKind at isWord
    split at isWord
    · next found =>
      cases isWord
      have same := List.find?_some (show List.find? _ _ = _ from found)
      exact (beq_iff_eq.mp same).symm
    · cases isWord

theorem of_isWord (lexeme : Lexeme kind literal first more) (isWord : IsWord (first :: more)) : kind = wordKind (first :: more) := by
  obtain ⟨_, _, same, starts, -⟩ := isWord
  cases same
  obtain ⟨marks, operators, quote⟩ := apart starts rfl
  cases lexeme with
  | punctuation mark => cases marks.symm.trans mark
  | alone operator | withEqual operator => cases operators.symm.trans operator
  | string => cases quote
  | whole digit | fraction digit => cases (startsWord_isDigit starts).symm.trans digit
  | word => rfl

end Lexeme

end Scan

/-- A text that is scanned is its tokens, one behind the other, with blanks and comments between them: every token covers its
own text, has the kind and the value that this text has, and cannot be longer; the end of the text comes last. A text that
cannot be scanned can be up to the place of the error. -/
theorem scan_partitions_source (source : String) :
    (∀ tokens, scan source = .ok tokens → ∃ (pieces : List Scan.Piece) (last : List Char) (line column : Nat),
      tokens.toList = pieces.map Prod.snd ++ [Token.endOfText source.utf8ByteSize line column] ∧
      source.toList = Scan.spelled pieces ++ last ∧ Scan.Filler true false last ∧
      tokens.toList.Pairwise (fun one two => one.span.stop ≤ two.span.start) ∧
      ∀ before gap token after, pieces = before ++ (gap, token) :: after →
        token.kind ≠ .eof ∧ Scan.Filler false false gap ∧
        token.span.start = (String.ofList (Scan.spelled before ++ gap)).utf8ByteSize ∧
        token.span.stop = token.span.start + token.lexeme.utf8ByteSize ∧ token.span.start < token.span.stop ∧
        (token.kind = .string → ∃ body, token.lexeme = "\"" ++ body ++ "\"" ∧ token.literal = some (.text body)) ∧
        (∀ word, token.kind = .keyword word ↔ token.lexeme = word.text) ∧
        (Scan.IsWord token.lexeme.toList → token.kind = .identifier ∨ ∃ word, token.kind = .keyword word) ∧
        Scan.Ends token.kind token.lexeme.toList (Scan.spelled after ++ last)) ∧
    ∀ error, scan source = .error error → ∃ before after tokens, source.toList = before ++ after ∧
      (String.ofList before).utf8ByteSize = error.span.start ∧ scan (String.ofList before) = .ok tokens := by
  obtain ⟨pieces, last, left, takes, outcome⟩ := Scan.scanFrom_takes .start source.toList #[]
  constructor
  · intro tokens done
    rw [show Scan.scanFrom .start source.toList #[] = _ from done] at outcome
    obtain ⟨rfl, tokens_eq⟩ := outcome
    have whole := takes.text_eq
    rw [List.append_nil] at whole
    obtain ⟨inside, ordered⟩ := takes.ordered
    rw [Scan.afterAll_offset, String.ofList_toList] at tokens_eq inside
    refine ⟨pieces, last, _, _, by simpa [Position.start] using tokens_eq, whole, takes.filler, ?_, ?_⟩
    · rw [tokens_eq]
      refine List.pairwise_append.mpr ⟨List.pairwise_map.mpr ordered, List.pairwise_singleton _ _, fun one member two isLast => ?_⟩
      obtain ⟨piece, listed, rfl⟩ := List.mem_map.mp member
      obtain rfl := List.mem_singleton.mp isLast
      exact (inside piece listed).2
    · intro before gap token after split
      obtain ⟨filler, span, ⟨first, more, text, lexeme⟩, ends⟩ := takes.placed split
      have span : token.span = (Position.start.afterAll (Scan.spelled before ++ gap)).spanOf token.lexeme.toList := span
      have start : token.span.start = (String.ofList (Scan.spelled before ++ gap)).utf8ByteSize := by
        rw [span, Position.spanOf, Scan.afterAll_offset]
        simp [Position.start]
      have stop : token.span.stop = token.span.start + token.lexeme.utf8ByteSize := by
        simp only [span, Position.spanOf, Scan.afterAll_offset, String.ofList_toList]
      have long : 0 < token.lexeme.utf8ByteSize := by
        rw [text, String.ofList_cons, String.utf8ByteSize_append, String.utf8ByteSize_singleton]
        have := first.utf8Size_pos
        omega
      have chars : token.lexeme.toList = first :: more := by rw [text, String.toList_ofList]
      refine ⟨lexeme.kind_ne_eof, filler, start, stop, by omega, fun isString => ?_, fun word => ⟨fun isKeyword => ?_, fun same => ?_⟩,
        fun isWord => ?_, by simpa using ends⟩
      · rw [isString] at lexeme
        obtain ⟨body, spelling, value⟩ := lexeme.string_body
        refine ⟨String.ofList body, ?_, value⟩
        rw [text, spelling, String.ofList_cons, String.ofList_append, String.append_assoc]
        rfl
      · rw [isKeyword] at lexeme
        exact text.trans lexeme.keyword_text
      · obtain ⟨isWord, kind⟩ := Scan.keyword_isWord word
        rw [← same, chars] at isWord kind
        exact (lexeme.of_isWord isWord).trans kind
      · rw [chars] at isWord
        rw [lexeme.of_isWord isWord, Scan.wordKind]
        split
        · exact .inr ⟨_, rfl⟩
        · exact .inl rfl
  · intro error failed
    rw [show Scan.scanFrom .start source.toList #[] = _ from failed] at outcome
    obtain ⟨text, span⟩ := outcome
    obtain ⟨tokens, done⟩ : ∃ tokens, Scan.scanFrom .start (Scan.spelled pieces ++ last) #[] = .ok tokens :=
      ⟨_, takes.cut.scanFrom_eq #[]⟩
    refine ⟨Scan.spelled pieces ++ last, left, tokens, takes.text_eq, ?_, ?_⟩
    · rw [span, Position.spanOf, Scan.afterAll_offset]
      simp [Position.start]
    · rw [scan, String.toList_ofList]
      exact done

/-- A comment between two tokens, and an error behind them. -/
theorem scan_partitions_source_comment :
    (∃ tokens pieces last, scan "a // b\n>= 1" = .ok tokens ∧ tokens.size = 4 ∧
      "a // b\n>= 1".toList = Scan.spelled pieces ++ last ∧ tokens.toList.dropLast = pieces.map Prod.snd) ∧
    ∃ error tokens before after, scan "a @" = .error error ∧ "a @".toList = before ++ after ∧
      scan (String.ofList before) = .ok tokens := by
  constructor
  · have scanned : (scan "a // b\n>= 1").toOption.map Array.size = some 4 := by decide +kernel
    cases done : scan "a // b\n>= 1" with
    | error error => simp [done, Except.toOption] at scanned
    | ok tokens =>
      obtain ⟨pieces, last, line, column, listed, whole, -⟩ := (scan_partitions_source _).1 tokens done
      exact ⟨tokens, pieces, last, rfl, by simpa [done, Except.toOption] using scanned, whole, by simp [listed]⟩
  · have failed : (scan "a @").toOption.isNone = true := by decide +kernel
    cases done : scan "a @" with
    | ok tokens => simp [done, Except.toOption] at failed
    | error error =>
      obtain ⟨before, after, tokens, whole, -, scanned⟩ := (scan_partitions_source _).2 error done
      exact ⟨error, tokens, before, after, rfl, whole, scanned⟩

end StackScript
