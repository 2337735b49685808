import StackScript.Token.Scan
import StackScript.Token.Cursor

/-!
Where the tokens of a text stand: one behind the other, on lines that count from one, and the last of them is the end of
the text.
-/

namespace StackScript

namespace Position

structure UpTo (here there : Position) : Prop where
  offset : here.offset ≤ there.offset
  line : here.line ≤ there.line

namespace UpTo

variable {first second third : Position}

theorem refl (here : Position) : here.UpTo here := ⟨Nat.le_refl _, Nat.le_refl _⟩

theorem trans (one : first.UpTo second) (two : second.UpTo third) : first.UpTo third :=
  ⟨Nat.le_trans one.offset two.offset, Nat.le_trans one.line two.line⟩

theorem after (here : Position) (c : Char) : here.UpTo (here.after c) := by
  unfold Position.after
  split
  · exact ⟨Nat.le_add_right _ _, Nat.le_succ _⟩
  · exact ⟨Nat.le_add_right _ _, Nat.le_refl _⟩

theorem afterAll (here : Position) (text : List Char) : here.UpTo (here.afterAll text) := by
  induction text generalizing here with
  | nil => exact .refl here
  | cons c text ih => exact (after here c).trans (ih (here.after c))

theorem skip (inComment : Bool) (here : Position) (text : List Char) : here.UpTo (Scan.skip inComment here text).1 := by
  fun_induction Scan.skip inComment here text with
  | case1 => exact .refl _
  | case2 here c _ ih => exact (after here c).trans ih
  | case3 here c _ _ ih => exact (after here c).trans ih
  | case4 here c _ _ _ ih => exact (after here c).trans ih
  | case5 => exact .refl _

end UpTo

end Position

structure Token.UpTo (token other : Token) : Prop where
  start : token.span.start ≤ other.span.start
  line : token.span.line ≤ other.span.line

/-- The tokens stand one behind the other, on lines that count from one. -/
structure Ordered (tokens : Array Token) : Prop where
  sorted : tokens.toList.Pairwise Token.UpTo
  lines : ∀ token ∈ tokens, 1 ≤ token.span.line

namespace Ordered

variable {tokens : Array Token}

theorem push {token : Token} (ordered : Ordered tokens) (behind : ∀ earlier ∈ tokens, earlier.UpTo token)
    (line : 1 ≤ token.span.line) : Ordered (tokens.push token) := by
  refine ⟨?_, fun other member => ?_⟩
  · rw [Array.toList_push, List.pairwise_append]
    refine ⟨ordered.sorted, List.pairwise_singleton _ _, fun earlier member last isLast => ?_⟩
    obtain rfl := List.mem_singleton.mp isLast
    exact behind earlier (Array.mem_toList_iff.mp member)
  · rcases Array.mem_push.mp member with old | rfl
    · exact ordered.lines other old
    · exact line

theorem upTo (ordered : Ordered tokens) {i j : Nat} (notAfter : i ≤ j) (inside : j < tokens.size) : tokens[i].UpTo tokens[j] := by
  rcases Nat.lt_or_eq_of_le notAfter with before | rfl
  · have pair := List.pairwise_iff_getElem.mp ordered.sorted i j (by simpa using Nat.lt_trans before inside) (by simpa) before
    simpa using pair
  · exact ⟨Nat.le_refl _, Nat.le_refl _⟩

end Ordered

namespace Scan

variable {here : Position} {text : List Char} {scanned : Array Token}

theorem scanFrom_ordered
    (done : scanFrom here text scanned = .ok tokens) (ordered : Ordered scanned)
    (behind : ∀ token ∈ scanned, (Position.mk token.span.start token.span.line 0).UpTo here) (line : 1 ≤ here.line) :
    Ordered tokens := by
  fun_induction scanFrom here text scanned with
  | case1 here text scanned place skipped =>
    cases done
    have ahead : here.UpTo place := by simpa only [skipped] using Position.UpTo.skip false here text
    refine ordered.push (fun earlier member => ?_) (Nat.le_trans line ahead.line)
    have further := (behind earlier member).trans ahead
    exact ⟨further.offset, further.line⟩
  | case2 => cases done
  | case3 here text scanned place first rest skipped token taken lexeme ih =>
    have ahead : here.UpTo place := by simpa only [skipped] using Position.UpTo.skip false here text
    have further := Position.UpTo.afterAll place lexeme
    have listed : Ordered (scanned.push ⟨token.kind, String.ofList lexeme, token.literal, place.spanOf lexeme⟩) := by
      refine ordered.push (fun earlier member => ?_) (Nat.le_trans line ahead.line)
      have reached := (behind earlier member).trans ahead
      exact ⟨reached.offset, reached.line⟩
    refine ih done listed (fun earlier member => ?_) (Nat.le_trans line (ahead.trans further).line)
    rcases Array.mem_push.mp member with old | rfl
    · exact ((behind earlier old).trans ahead).trans further
    · exact ⟨further.offset, further.line⟩

theorem scanFrom_closed
    (done : scanFrom here text scanned = .ok tokens) : Closed tokens := by
  fun_induction scanFrom here text scanned with
  | case1 =>
    cases done
    exact Cursor.closed_push _ rfl
  | case2 => cases done
  | case3 here text scanned place first rest skipped token taken lexeme ih => exact ih done

end Scan

variable {source : String} {tokens : Array Token}

theorem scan_ordered (scanned : scan source = .ok tokens) : Ordered tokens :=
  Scan.scanFrom_ordered scanned ⟨.nil, nofun⟩ nofun (Nat.le_refl 1)

theorem scan_closed (scanned : scan source = .ok tokens) : Closed tokens :=
  Scan.scanFrom_closed scanned

theorem Cursor.ofTokens_tokens (closed : Closed tokens) : (Cursor.ofTokens tokens).tokens = tokens := by
  rw [Cursor.ofTokens, dif_pos closed]

end StackScript
