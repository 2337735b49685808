import StackScript.Proofs.Verification

/-!
Places inside a function. A stretch of its code is replaced by the demand that it leads from one shape to another: if it
does, and may also be entered at some points of its own, then the whole code can be given shapes and be entered at those
points too. So the shape at a place deep inside is found by going inwards, one stretch at a time.
-/

namespace StackScript

def Points.or (one other : Points) : Points :=
  fun place found => one place found ∨ other place found

variable {context : Context} {own before between after : Shape} {start middle stop : Nat} {entry exit : Points}

theorem Segment.before_open {extra : Points} (first : Segment context start middle before between)
    (second : Block context middle stop ((Points.at middle between).or extra) exit) :
    Block context start stop ((Points.at start before).or extra) exit := by
  rcases first with ⟨rfl, rfl⟩ | first
  · exact second
  · apply first.join second
    · rintro place found (enter | inner)
      · exact .inl enter
      · exact .inr (.inr inner)
    · rintro place found (on | out)
      · exact .inr (.inl (.inl on))
      · exact .inr (.inr out)

/-- The code from `start` to `stop` leads from one shape to another and may also be entered at the points of `extra`, or
there is no code. -/
def Passage (context : Context) (start stop : Nat) (extra : Points) (before after : Shape) : Prop :=
  (start = stop ∧ before = after ∧ ∀ place found, ¬ extra place found) ∨
    Block context start stop ((Points.at start before).or extra) (.at stop after)

theorem Passage.before_block {extra : Points} (passage : Passage context start middle extra before between)
    (rest : Block context middle stop (.at middle between) exit) :
    Block context start stop ((Points.at start before).or (extra.or (.at middle between))) exit := by
  rcases passage with ⟨rfl, rfl, no⟩ | block
  · apply rest.mono _ fun _ _ => id
    rintro place found (enter | inner | ends)
    · exact enter
    · exact absurd inner (no place found)
    · exact ends
  · apply block.join rest
    · rintro place found (enter | inner | ends)
      · exact .inl (.inl enter)
      · exact .inl (.inr inner)
      · exact .inr ends
    · rintro place found (on | out)
      · exact .inr (.inl on)
      · exact .inr (.inr out)

/-- The code of a function, but for the stretch from `start` to `stop`: whatever leads from one shape to the other there
makes code that can be entered with the function's own shape, at the points of the stretch, and behind the stretch. -/
def Whole (context : Context) (own : Shape) (start stop : Nat) (before after : Shape) : Prop :=
  ∀ extra, Passage context start stop extra before after →
    Block context 0 context.chunk.code.size (((Points.at 0 own).or extra).or (.at stop after)) .none

namespace Whole

theorem of_rest (rest : Block context stop context.chunk.code.size (.at stop after) .none) :
    Whole context before 0 stop before after := by
  intro extra passage
  apply (passage.before_block rest).mono _ fun _ _ => id
  rintro place found ((enter | inner) | ends)
  · exact .inl enter
  · exact .inr (.inl inner)
  · exact .inr (.inr ends)

section

variable (whole : Whole context own start stop before after)
include whole

theorem front (rest : Segment context middle stop between after) :
    Whole context own start middle before between := by
  intro extra passage
  rcases rest with ⟨rfl, rfl⟩ | rest
  · exact whole extra passage
  · apply (whole _ (.inr (passage.before_block rest))).mono _ fun _ _ => id
    rintro place found ((enter | inner) | ends)
    · exact .inl (.inl enter)
    · exact .inl (.inr (.inl inner))
    · exact .inl (.inr (.inr ends))

theorem back (first : Segment context start middle before between) :
    Whole context own middle stop between after := by
  intro extra passage
  apply whole extra
  rcases passage with ⟨rfl, rfl, no⟩ | block
  · rcases first with ⟨rfl, rfl⟩ | first
    · exact .inl ⟨rfl, rfl, no⟩
    · right
      apply first.mono _ fun _ _ => id
      rintro place found (enter | inner)
      · exact enter
      · exact absurd inner (no place found)
  · exact .inr (first.before_open block)

theorem inwards {start' stop' : Nat} {before' after' : Shape}
    (around : ∀ extra, Passage context start' stop' extra before' after' →
      Block context start stop ((Points.at start before).or (extra.or (.at stop' after'))) (.at stop after)) :
    Whole context own start' stop' before' after' := by
  intro extra passage
  apply (whole _ (.inr (around extra passage))).mono _ fun _ _ => id
  rintro place found ((enter | inner) | ends)
  · exact .inl (.inl enter)
  · exact .inl (.inr (.inl inner))
  · exact .inl (.inr (.inr ends))

theorem entered (segment : Segment context start stop before after) :
    Block context 0 context.chunk.code.size (((Points.at 0 own).or (.at start before)).or (.at stop after)) .none := by
  rcases segment with ⟨rfl, rfl⟩ | block
  · apply (whole .none (.inl ⟨rfl, rfl, fun _ _ => id⟩)).mono _ fun _ _ => id
    rintro place found ((enter | starts) | ends)
    · exact .inl (.inl enter)
    · exact .inr starts
    · exact .inr ends
  · have open_ : Block context start stop ((Points.at start before).or (.at start before)) (.at stop after) :=
      block.mono (fun _ _ enter => enter.elim id id) fun _ _ => id
    exact whole _ (.inr open_)

end

end Whole

section Branches

variable {yes past no : Nat} {tested : Shape}

theorem Whole.taken (whole : Whole context own start stop tested after)
    (test : Block context start middle (.at start tested) ((Points.at middle tested).or (.at no tested)))
    (pops : Segment context middle yes tested after) (jump : Block context past no (.at past after) (.at stop after))
    (other : Segment context no stop tested after) : Whole context own yes past after after := by
  apply whole.inwards
  intro extra passage
  have branch := pops.before_open (passage.before_block jump)
  have both : Block context start no ((Points.at start tested).or (extra.or (.at past after)))
      ((Points.at no tested).or (.at stop after)) := by
    apply test.join branch
    · rintro place found (enter | inner)
      · exact .inl enter
      · exact .inr (.inr inner)
    · rintro place found ((on | other) | ends)
      · exact .inr (.inl (.inl on))
      · exact .inr (.inr (.inl other))
      · exact .inr (.inr (.inr ends))
  exact other.after_branch both fun _ _ => id

theorem Whole.skipped (whole : Whole context own start stop tested after)
    (test : Block context start middle (.at start tested) ((Points.at middle tested).or (.at no tested)))
    (branch : Block context middle no (.at middle tested) (.at stop after))
    (pops : Block context no past (.at no tested) (.at past after)) : Whole context own past stop after after := by
  intro extra passage
  -- Where the branch has no code, its end is the end of both.
  have other : Block context no stop ((Points.at no tested).or extra) (.at stop after) := by
    rcases passage with ⟨rfl, -, none⟩ | block
    · apply pops.mono _ fun _ _ => id
      rintro place found (enter | inner)
      · exact enter
      · exact absurd inner (none place found)
    · exact Segment.before_open (.inr pops) block
  have first : Block context start no (.at start tested) ((Points.at no tested).or (.at stop after)) := by
    apply test.join branch fun _ _ => .inl
    rintro place found ((on | other) | ends)
    · exact .inr (.inl on)
    · exact .inr (.inr (.inl other))
    · exact .inr (.inr (.inr ends))
  apply whole extra
  right
  apply first.join other
  · rintro place found (enter | inner)
    · exact .inl enter
    · exact .inr (.inr inner)
  · rintro place found ((other | ends) | ends)
    · exact .inr (.inl (.inl other))
    · exact .inr (.inr ends)
    · exact .inr (.inr ends)

end Branches

section Loops

variable {round leave back : Nat} {tested : Shape} {extra : Points}

theorem Block.while (condition : Segment context start middle before tested)
    (test : Block context middle round (.at middle tested) ((Points.at round tested).or (.at leave tested)))
    (rounds : Block context round leave ((Points.at round tested).or extra) (.at start before))
    (out : Segment context leave stop tested after) :
    Block context start stop ((Points.at start before).or extra) (.at stop after) := by
  have loop : Block context start leave ((Points.at start before).or extra) (.at leave tested) := by
    apply (condition.before_block test).join rounds
    · rintro place found (enter | inner)
      · exact .inl enter
      · exact .inr (.inr inner)
    · rintro place found ((on | leaves) | again)
      · exact .inr (.inl (.inl on))
      · exact .inr (.inr leaves)
      · exact .inl again
  exact out.after_block loop

theorem Block.detour (detour : Block context start middle ((Points.at start before).or (.at back before))
      ((Points.at middle before).or exit))
    (rounds : Block context middle stop ((Points.at middle before).or extra) (.at back before)) :
    Block context start stop ((Points.at start before).or extra) exit := by
  apply detour.join rounds
  · rintro place found (enter | inner)
    · exact .inl (.inl enter)
    · exact .inr (.inr inner)
  · rintro place found ((on | out) | again)
    · exact .inr (.inl (.inl on))
    · exact .inr (.inr out)
    · exact .inl (.inr again)

end Loops

end StackScript
