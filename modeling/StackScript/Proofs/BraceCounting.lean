import Mathlib
import StackScript.CommandLine.Shell
import StackScript.Proofs.SourcePartition

/-!
Braces counted line by line, and braces among the tokens. A line is counted without a look at the lines before it and without
regard to comments. So the two counts agree where quotes and braces stay out of comments and every string ends on its line; there
an entry goes on exactly as long as its tokens leave a block open.
-/

namespace StackScript

namespace CommandLine

/-- The characters that are counted and those that switch the counting off and on. -/
def marks : List Char := ['"', '\x7b', '\x7d']

/-- How many more of the tokens open a block than close one. -/
def opened (tokens : List Token) : Int :=
  tokens.countP (·.kind == .leftBrace) - tokens.countP (·.kind == .rightBrace)

/-- The same for the tokens on the first lines of a text. -/
def openedBy (tokens : Array Token) (line : Nat) : Int :=
  opened (tokens.toList.filter (·.span.line ≤ line))

/-- Lines as they are read: each ends with its line feed, which the last may lack. -/
inductive AreLines : List String → Prop where
  | none : AreLines []
  | last {line : String} (whole : '\n' ∉ line.toList) : AreLines [line]
  | line {line : String} {further : List String} (whole : '\n' ∉ line.toList) (rest : AreLines further) :
      AreLines ((line ++ "\n") :: further)

/-- All quotes and braces of the text stand in its tokens, none in comments, and no string goes on over the end of its line. -/
def Steady (text : List Char) (tokens : List Token) : Prop :=
  (∀ c ∈ marks, text.count c = (tokens.map (·.lexeme.toList.count c)).sum) ∧
    ∀ token ∈ tokens, token.kind = .string → '\n' ∉ token.lexeme.toList

-- Only the three marks are tried, not all characters.
instance (text : List Char) (tokens : List Token) : Decidable (Steady text tokens) :=
  @instDecidableAnd _ _ (List.decidableBAll _ marks) (List.decidableBAll _ tokens)

def signOf (c : Char) : Int :=
  if c = '\x7b' then 1 else if c = '\x7d' then -1 else 0

def weight : Kind → Int
  | .leftBrace => 1
  | .rightBrace => -1
  | _ => 0

/-- The balances of the lines in front of a bound, counted through a text that starts here. -/
def balanceBefore (bound : Nat) : (isQuoted : Bool) → Position → List Char → Int
  | _, _, [] => 0
  | isQuoted, here, c :: text =>
    (if here.line < bound ∧ isQuoted = false then signOf c else 0) +
      balanceBefore bound (c != '\n' && (isQuoted != (c == '"'))) (here.after c) text

theorem balanceFrom_cons (isQuoted : Bool) (c : Char) (text : List Char) :
    balanceFrom isQuoted (c :: text) = (if isQuoted = false then signOf c else 0) + balanceFrom (isQuoted != (c == '"')) text := by
  by_cases quote : c = '"'
  · subst quote
    cases isQuoted <;> simp [balanceFrom, signOf]
  by_cases left : c = '\x7b'
  · subst left
    cases isQuoted <;> simp [balanceFrom, signOf]
  by_cases right : c = '\x7d'
  · subst right
    cases isQuoted <;> simp [balanceFrom, signOf]
  · simp [balanceFrom, signOf, beq_false_of_ne quote, left, right]

theorem balanceFrom_feed (isQuoted : Bool) (text : List Char) : balanceFrom isQuoted (text ++ ['\n']) = balanceFrom isQuoted text := by
  induction text generalizing isQuoted with
  | nil => simp [balanceFrom]
  | cons c text ih => rw [List.cons_append, balanceFrom_cons, balanceFrom_cons, ih]

theorem opened_cons (token : Token) (tokens : List Token) : opened (token :: tokens) = weight token.kind + opened tokens := by
  unfold opened
  rw [List.countP_cons, List.countP_cons]
  cases token.kind <;> simp [weight] <;> omega

theorem opened_end (tokens : List Token) (p : Token → Bool) (offset line column : Nat) :
    opened ((tokens ++ [Token.endOfText offset line column]).filter p) = opened (tokens.filter p) := by
  rw [List.filter_append, List.filter_singleton]
  cases p (Token.endOfText offset line column) <;> simp [opened, List.countP_append, Token.endOfText]

section Characters

variable {text rest : List Char} (bound : Nat) (here : Position)

theorem balanceBefore_plain (plain : ∀ c ∈ text, c ∉ marks) :
    balanceBefore bound false here (text ++ rest) = balanceBefore bound false (here.afterAll text) rest := by
  induction text generalizing here with
  | nil => rfl
  | cons c text ih =>
    have other := plain c List.mem_cons_self
    simp only [marks, List.mem_cons, List.not_mem_nil, or_false, not_or] at other
    rw [List.cons_append, balanceBefore, beq_false_of_ne other.1, bne_self_eq_false, Bool.and_false,
      ih (here.after c) fun d member => plain d (List.mem_cons_of_mem _ member)]
    simp [signOf, other, Position.afterAll]

theorem balanceBefore_quoted (inside : ∀ c ∈ text, c ≠ '"' ∧ c ≠ '\n') :
    balanceBefore bound true here (text ++ rest) = balanceBefore bound true (here.afterAll text) rest := by
  induction text generalizing here with
  | nil => rfl
  | cons c text ih =>
    have other := inside c List.mem_cons_self
    have stays : (c != '\n' && (true != (c == '"'))) = true := by simp [other]
    rw [List.cons_append, balanceBefore, stays, ih (here.after c) fun d member => inside d (List.mem_cons_of_mem _ member)]
    simp [Position.afterAll]

theorem balanceBefore_whole {isQuoted : Bool} (whole : '\n' ∉ text) : (here.afterAll text).line = here.line ∧ ∃ isQuoted',
    balanceBefore bound isQuoted here (text ++ rest) =
      (if here.line < bound then balanceFrom isQuoted text else 0) + balanceBefore bound isQuoted' (here.afterAll text) rest := by
  induction text generalizing here isQuoted with
  | nil => exact ⟨rfl, isQuoted, by simp [balanceFrom, Position.afterAll]⟩
  | cons c text ih =>
    have other : c ≠ '\n' := fun same => whole (same ▸ List.mem_cons_self)
    have moved : (here.after c).line = here.line := by simp [Position.after, other]
    obtain ⟨line, isQuoted', counted⟩ := @ih (here.after c) (isQuoted != (c == '"')) fun member => whole (List.mem_cons_of_mem _ member)
    rw [moved] at line counted
    refine ⟨line, isQuoted', ?_⟩
    rw [List.cons_append, balanceBefore, bne_iff_ne.mpr other, Bool.true_and, counted, balanceFrom_cons]
    by_cases before : here.line < bound
    · simp only [before, true_and, if_true]
      exact (Int.add_assoc ..).symm
    · simp [before, Position.afterAll]

theorem balanceBefore_past {isQuoted : Bool} (past : bound ≤ here.line) : balanceBefore bound isQuoted here text = 0 := by
  induction text generalizing here isQuoted with
  | nil => rfl
  | cons c text ih =>
    have onward : here.line ≤ (here.after c).line := by
      unfold Position.after
      split <;> simp
    rw [balanceBefore, ih _ (Nat.le_trans past onward)]
    simp [Nat.not_lt.mpr past]

end Characters

section Tokens

variable {text rest : List Char} {kind : Kind} {literal : Option Literal} {first : Char} {more : List Char}

theorem not_marks {p : Char → Bool} (none : marks.any p = false) {c : Char} (holds : p c = true) : c ∉ marks :=
  fun member => List.any_eq_false.mp none c member holds

/-- A lexeme is a string, a single sign, or without quotes and braces. -/
theorem lexeme_sorts (lexeme : Scan.Lexeme kind literal first more) :
    (kind = .string ∧ ∃ body, first = '"' ∧ more = body ++ ['"'] ∧ ∀ c ∈ body, c ≠ '"') ∨
      (more = [] ∧ signOf first = weight kind ∧ first ≠ '"') ∨ weight kind = 0 ∧ ∀ c ∈ first :: more, c ∉ marks := by
  have digits {c : Char} : c.isDigit = true → c ∉ marks := not_marks (by decide)
  have letters {c : Char} : Scan.continuesWord c = true → c ∉ marks := not_marks (by decide)
  cases lexeme with
  | punctuation mark =>
    unfold Scan.punctuation? at mark
    split at mark <;> cases mark <;> exact .inr (.inl (by decide))
  | alone operator =>
    unfold Scan.operator? at operator
    split at operator <;> cases operator <;> exact .inr (.inl (by decide))
  | withEqual operator =>
    unfold Scan.operator? at operator
    split at operator <;> cases operator <;> exact .inr (.inr ⟨rfl, by simp [marks]⟩)
  | @string body plain => exact .inl ⟨rfl, body, rfl, rfl, plain⟩
  | whole starts all => exact .inr (.inr ⟨rfl, List.forall_mem_cons.mpr ⟨digits starts, fun c member => digits (all c member)⟩⟩)
  | fraction starts all behind =>
    refine .inr (.inr ⟨rfl, List.forall_mem_cons.mpr ⟨digits starts, List.forall_mem_append.mpr ⟨fun c member => digits (all c member), ?_⟩⟩⟩)
    exact List.forall_mem_cons.mpr ⟨by decide, fun c member => digits (behind c member)⟩
  | word starts all =>
    refine .inr (.inr ⟨?_, List.forall_mem_cons.mpr ⟨not_marks (by decide) starts, fun c member => letters (all c member)⟩⟩)
    unfold Scan.wordKind
    split <;> rfl

theorem balanceBefore_lexeme (lexeme : Scan.Lexeme kind literal first more) (inLine : kind = .string → '\n' ∉ first :: more)
    (bound : Nat) (here : Position) : balanceBefore bound false here (first :: (more ++ rest)) =
      (if here.line < bound then weight kind else 0) + balanceBefore bound false (here.afterAll (first :: more)) rest := by
  rcases lexeme_sorts lexeme with ⟨rfl, body, rfl, rfl, inside⟩ | ⟨rfl, sign, notQuote⟩ | ⟨weightless, plain⟩
  · have within (c : Char) (member : c ∈ body) : c ≠ '"' ∧ c ≠ '\n' :=
      ⟨inside c member, fun same => inLine rfl (List.mem_cons_of_mem _ (List.mem_append_left _ (same ▸ member)))⟩
    have quoted := @balanceBefore_quoted body ('"' :: rest) bound (here.after '"') within
    simp [balanceBefore, quoted, weight, signOf, Position.afterAll]
  · simp [balanceBefore, sign, beq_false_of_ne notQuote, Position.afterAll]
  · rw [weightless, ← List.cons_append, balanceBefore_plain bound here plain]
    simp

end Tokens

/-- The count through a text is that of the tokens that begin before the bound. -/
theorem balanceBefore_takes {here : Position} {text last : List Char} {pieces : List Scan.Piece}
    (takes : Scan.Takes here text pieces last []) (gaps : ∀ piece ∈ pieces, ∀ c ∈ piece.1, c ∉ marks) (ending : ∀ c ∈ last, c ∉ marks)
    (inLine : ∀ piece ∈ pieces, piece.2.kind = .string → '\n' ∉ piece.2.lexeme.toList) (bound : Nat) :
    balanceBefore bound false here text = opened ((pieces.map Prod.snd).filter (·.span.line < bound)) := by
  generalize nothing : ([] : List Char) = left at takes
  induction takes with
  | @done here last left filler _ =>
    subst nothing
    rw [balanceBefore_plain bound here ending]
    rfl
  | @token here gap more rest _ _ first kind _ pieces filler stops lexeme _ _ ih =>
    obtain ⟨plain, gaps⟩ := List.forall_mem_cons.mp gaps
    obtain ⟨whole, inLine⟩ := List.forall_mem_cons.mp inLine
    rw [balanceBefore_plain bound here plain, balanceBefore_lexeme lexeme (by simpa using whole), ih gaps ending inLine nothing,
      List.map_cons, List.filter_cons]
    by_cases before : (here.afterAll gap).line < bound <;> simp [Position.spanOf, before, opened_cons]

theorem count_spelled (c : Char) (pieces : List Scan.Piece) : (Scan.spelled pieces).count c =
    (pieces.map (·.1.count c)).sum + (pieces.map (·.2.lexeme.toList.count c)).sum := by
  induction pieces with
  | nil => rfl
  | cons piece pieces ih =>
    simp only [Scan.spelled, List.flatMap_cons, List.count_append, List.map_cons, List.sum_cons] at ih ⊢
    omega

theorem AreLines.balanceBefore_eq {lines : List String} (areLines : AreLines lines) (here : Position) (count : Nat) :
    balanceBefore (here.line + count) false here (String.join lines).toList = ((lines.take count).map balance).sum := by
  induction areLines generalizing here count with
  | none => simp [balanceBefore]
  | @last line whole =>
    cases count with
    | zero => exact balanceBefore_past _ _ (Nat.le_refl _)
    | succ count =>
      obtain ⟨-, _, counted⟩ := @balanceBefore_whole _ [] (here.line + (count + 1)) here false whole
      simpa [balanceBefore, balance] using counted
  | @line line further whole _ ih =>
    cases count with
    | zero => exact balanceBefore_past _ _ (Nat.le_refl _)
    | succ count =>
      have shape : (String.join ((line ++ "\n") :: further)).toList = line.toList ++ '\n' :: (String.join further).toList := by simp
      obtain ⟨same, isQuoted, front⟩ := @balanceBefore_whole _ ('\n' :: (String.join further).toList) (here.line + (count + 1)) here false whole
      have next : ((here.afterAll line.toList).after '\n').line = here.line + 1 := by simp [Position.after, same]
      have back := ih ((here.afterAll line.toList).after '\n') count
      rw [next, Nat.add_right_comm, Nat.add_assoc] at back
      rw [shape, front, if_pos (by omega), balanceBefore, bne_self_eq_false, Bool.false_and, back]
      simp [balance, balanceFrom_feed, signOf]

/-- A text whose quotes and braces are all in tokens and whose strings end on their lines. -/
structure Countable (lines : List String) (tokens : Array Token) : Prop where
  areLines : AreLines lines
  scanned : scan (String.join lines) = .ok tokens
  steady : Steady (String.join lines).toList tokens.toList

namespace Countable

variable {lines : List String} {tokens : Array Token}

theorem sum_take (countable : Countable lines tokens) (k : Nat) : ((lines.take k).map balance).sum = openedBy tokens k := by
  obtain ⟨pieces, last, left, takes, outcome⟩ := Scan.scanFrom_takes .start (String.join lines).toList #[]
  rw [show Scan.scanFrom .start (String.join lines).toList #[] = _ from countable.scanned] at outcome
  obtain ⟨rfl, tokens_eq⟩ := outcome
  have counts (c : Char) (mark : c ∈ marks) : (pieces.map (·.1.count c)).sum + last.count c = 0 := by
    have counted := countable.steady.1 c mark
    have inTokens : (tokens.toList.map (·.lexeme.toList.count c)).sum = (pieces.map (·.2.lexeme.toList.count c)).sum := by
      simp [tokens_eq, Token.endOfText, Function.comp_def]
    rw [inTokens, takes.text_eq, List.append_nil, List.count_append, count_spelled] at counted
    omega
  have gaps (piece : Scan.Piece) (member : piece ∈ pieces) (c : Char) (inside : c ∈ piece.1) (mark : c ∈ marks) : False := by
    have least := List.le_sum_of_mem (List.mem_map.mpr ⟨piece, member, rfl⟩ : piece.1.count c ∈ pieces.map (·.1.count c))
    have some := List.count_pos_iff.mpr inside
    have none := counts c mark
    omega
  have ending (c : Char) (inside : c ∈ last) (mark : c ∈ marks) : False := by
    have some := List.count_pos_iff.mpr inside
    have none := counts c mark
    omega
  have inLine (piece : Scan.Piece) (member : piece ∈ pieces) : piece.2.kind = .string → '\n' ∉ piece.2.lexeme.toList :=
    countable.steady.2 piece.2 (by simp [tokens_eq, List.mem_map_of_mem member])
  have onLines := countable.areLines.balanceBefore_eq .start k
  have onTokens := balanceBefore_takes takes gaps ending inLine (Position.start.line + k)
  have upTo : (fun token : Token => decide (token.span.line < Position.start.line + k)) = fun token => decide (token.span.line ≤ k) := by
    simp [Position.start, Nat.lt_one_add_iff]
  rw [← onLines, onTokens, openedBy, tokens_eq, opened_end, upTo]
  rfl

theorem sum_all (countable : Countable lines tokens) : (lines.map balance).sum = opened tokens.toList := by
  -- Count up to a line behind the last line and behind every token.
  have counted := countable.sum_take (lines.length + (tokens.toList.map (·.span.line)).sum)
  rw [List.take_of_length_le (Nat.le_add_right ..), openedBy, List.filter_eq_self.mpr] at counted
  · exact counted
  · intro token member
    have within := List.le_sum_of_mem (List.mem_map.mpr ⟨token, member, rfl⟩ : token.span.line ∈ tokens.toList.map (·.span.line))
    exact decide_eq_true (Nat.le_trans within (Nat.le_add_left ..))

end Countable

section Entries

def asksToLeave (line : String) : Prop :=
  Text.trim line.toList = ".exit".toList

/-- The prompts in front of some lines. -/
def asking (prompts : List String) (seen : Transcript) : Transcript :=
  prompts.foldl (fun seen prompt => seen.print prompt) seen

/-- With open braces a draft is gone on with; without, it is submitted, unless it is blank. -/
def proceed (fuel : Nat) (lists : Bool) (further : List (Except String String)) (draft : Draft) (machine : Machine Empty)
    (seen : Transcript) : Transcript :=
  if 0 < draft.balance then converse fuel lists further draft machine seen
  else if isBlankText draft.text then converse fuel lists further {} machine seen
  else
    let (failure?, machine, seen) := perform fuel lists draft.text machine seen
    converse fuel lists further {} machine (failure?.elim seen fun failure => seen.complain failure)

variable {draft : Draft} {line : String} {lines : List String} (fuel : Nat) (lists : Bool) (further : List (Except String String))
  (machine : Machine Empty) (seen : Transcript)

theorem converse_line (stays : draft.text = "" → ¬asksToLeave line) : converse fuel lists (.ok line :: further) draft machine seen =
    proceed fuel lists further ⟨draft.text ++ line, draft.balance + balance line⟩ machine (seen.print draft.prompt) := by
  have notLeaving : ¬(draft.text.isEmpty ∧ Text.trim line.toList = ".exit".toList) :=
    fun ⟨empty, leaves⟩ => stays (String.isEmpty_iff.mp empty) leaves
  rw [converse, Draft.add, if_neg notLeaving, proceed]
  by_cases grows : 0 < draft.balance + balance line
  · simp only [gt_iff_lt, if_pos grows]
  · cases blank : isBlankText (draft.text ++ line) with
    | true => simp only [gt_iff_lt, if_neg grows, if_true, blank]
    | false =>
      simp only [gt_iff_lt, if_neg grows, Bool.false_eq_true, if_false, blank]
      rcases perform fuel lists (draft.text ++ line) machine (seen.print draft.prompt) with ⟨failure | failure, machine, seen⟩ <;> rfl

/-- Lines that leave braces open make a draft longer, up to the last of them. -/
theorem converse_lines (begun : draft.text = "" → draft.balance ≤ 0) (stays : draft.text = "" → ∀ line ∈ lines.head?, ¬asksToLeave line)
    (some : lines ≠ []) (opens : ∀ k, 0 < k → k < lines.length → 0 < draft.balance + ((lines.take k).map balance).sum) :
    ∃ prompts, converse fuel lists (lines.map .ok ++ further) draft machine seen = proceed fuel lists further
      ⟨draft.text ++ String.join lines, draft.balance + (lines.map balance).sum⟩ machine (asking prompts seen) := by
  induction lines generalizing draft seen with
  | nil => exact absurd rfl some
  | cons line lines ih =>
    rw [List.map_cons, List.cons_append, converse_line fuel lists _ machine seen fun nothing => stays nothing line rfl]
    cases lines with
    | nil => exact ⟨[draft.prompt], by simp [asking]⟩
    | cons second others =>
      have grows : 0 < draft.balance + balance line := by simpa using opens 1 (by simp) (by simp)
      have begun : draft.text ++ line = "" → draft.balance + balance line ≤ 0 := by
        intro nothing
        obtain ⟨before, rfl⟩ := String.append_eq_empty_iff.mp nothing
        simpa [balance, balanceFrom] using begun before
      have opens (k : Nat) (positive : 0 < k) (within : k < (second :: others).length) :
          0 < draft.balance + balance line + (((second :: others).take k).map balance).sum := by
        have later := opens (k + 1) (by omega) (by simpa using within)
        rwa [List.take_succ_cons, List.map_cons, List.sum_cons, ← Int.add_assoc] at later
      obtain ⟨prompts, same⟩ := @ih ⟨draft.text ++ line, draft.balance + balance line⟩ (seen.print draft.prompt) begun
        (fun nothing => absurd (begun nothing) (Int.not_le.mpr grows)) (by simp) opens
      refine ⟨draft.prompt :: prompts, ?_⟩
      rw [proceed, if_pos grows, same]
      simp [asking, String.append_assoc, Int.add_assoc]

end Entries

/-- The lines of an entry whose comments hold no quotes and no braces and whose strings end on their lines: after each line as many
braces are counted as the tokens so far have. So as long as the tokens leave a block open, more lines are asked for, and with the
first line after which they do not, the entry is submitted. -/
theorem entries_end_with_their_blocks {lines : List String} {tokens : Array Token} (countable : Countable lines tokens) :
    (lines.map balance).sum = opened tokens.toList ∧ (∀ k, ((lines.take k).map balance).sum = openedBy tokens k) ∧
    ∀ n, 0 < n → n ≤ lines.length → (∀ line ∈ lines.head?, ¬asksToLeave line) → (∀ k, 0 < k → k < n → 0 < openedBy tokens k) →
      ∀ fuel lists further machine seen, ∃ prompts, converse fuel lists ((lines.take n).map .ok ++ further) {} machine seen =
        proceed fuel lists further ⟨String.join (lines.take n), openedBy tokens n⟩ machine (asking prompts seen) := by
  refine ⟨countable.sum_all, countable.sum_take, fun n positive within stays opens fuel lists further machine seen => ?_⟩
  have begins : ∀ line ∈ (lines.take n).head?, ¬asksToLeave line := by
    rw [List.head?_take, if_neg (by omega)]
    exact stays
  have opens (k : Nat) (positive : 0 < k) (inside : k < (lines.take n).length) :
      (0 : Int) < 0 + (((lines.take n).take k).map balance).sum := by
    rw [List.length_take_of_le within] at inside
    rw [List.take_take, Nat.min_eq_left (Nat.le_of_lt inside), countable.sum_take, Int.zero_add]
    exact opens k positive inside
  have some : lines.take n ≠ [] := List.ne_nil_of_length_pos (by rwa [List.length_take_of_le within])
  have runs := @converse_lines {} (lines.take n) fuel lists further machine seen (fun _ => Int.le_refl 0) (fun _ => begins) some opens
  rwa [countable.sum_take, Int.zero_add, String.empty_append] at runs

/-- A block over two lines, with a brace in a string. -/
theorem entries_end_with_their_blocks_two_lines : ∃ tokens,
    Countable ["\x7b \"\x7b\"; //\n", "\x7d\n"] tokens ∧ openedBy tokens 1 = 1 ∧ openedBy tokens 2 = 0 ∧
      ∀ fuel lists machine seen, ∃ prompts, converse fuel lists [.ok "\x7b \"\x7b\"; //\n", .ok "\x7d\n"] {} machine seen =
        proceed fuel lists [] ⟨"\x7b \"\x7b\"; //\n\x7d\n", 0⟩ machine (asking prompts seen) := by
  have scanned : (scan "\x7b \"\x7b\"; //\n\x7d\n").toOption.map (fun tokens =>
      (openedBy tokens 1, openedBy tokens 2, decide (Steady "\x7b \"\x7b\"; //\n\x7d\n".toList tokens.toList))) = some (1, 0, true) := by
    decide +kernel
  cases done : scan "\x7b \"\x7b\"; //\n\x7d\n" with
  | error error => simp [done, Except.toOption] at scanned
  | ok tokens =>
    simp only [done, Except.toOption, Option.map_some, Option.some.injEq, Prod.mk.injEq, decide_eq_true_eq] at scanned
    have areLines : AreLines ["\x7b \"\x7b\"; //\n", "\x7d\n"] :=
      @AreLines.line "\x7b \"\x7b\"; //" _ (by decide) (@AreLines.line "\x7d" _ (by decide) .none)
    have countable : Countable ["\x7b \"\x7b\"; //\n", "\x7d\n"] tokens := ⟨areLines, done, scanned.2.2⟩
    refine ⟨tokens, countable, scanned.1, scanned.2.1, fun fuel lists machine seen => ?_⟩
    have stays : ¬asksToLeave "\x7b \"\x7b\"; //\n" := by
      unfold asksToLeave
      decide +kernel
    have opens (k : Nat) (positive : 0 < k) (before : k < 2) : 0 < openedBy tokens k := by
      obtain rfl : k = 1 := by omega
      simp [scanned.1]
    simpa [scanned.2.1] using
      (entries_end_with_their_blocks countable).2.2 2 (by decide) (by decide) (by simpa using stays) opens fuel lists [] machine seen

/-- Neither comments nor strings over several lines are seen where lines are counted. -/
example : balance "// \x7b" = 1 ∧ (scan "// \x7b").toOption.map (opened ·.toList) = some 0 ∧
    balance "\"\n" + balance "\x7b\"" = 1 ∧ (scan "\"\n\x7b\"").toOption.map (opened ·.toList) = some 0 := by
  decide +kernel

end CommandLine

end StackScript
