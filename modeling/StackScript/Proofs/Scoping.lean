import Mathlib.Data.List.Forall2
import StackScript.Compile.Scope
import StackScript.Proofs.Layout

/-!
What names refer to. While a function is compiled, the functions around it only widen: their locals keep their names
and slots and may become captured, and captures are appended. So a capture keeps referring to the same variable, and
in particular it keeps referring to `super` or not. Threading a name inwards keeps all captures meaningful, and it finds
a variable wherever a function around declares one.
-/

namespace StackScript.Compile

variable {name : String} {scope after inner : FunctionScope} {slot : Nat} {outers : List FunctionScope} {capture : Capture}
  {role : Role} {index : Option Nat}

def Extended {α : Type} (before after : Array α) : Prop :=
  ∀ (i : Nat) (x : α), before[i]? = some x → after[i]? = some x

namespace Extended

variable {α : Type}

theorem refl (xs : Array α) : Extended xs xs :=
  fun _ _ => id

theorem trans {xs ys zs : Array α} (first : Extended xs ys) (second : Extended ys zs) : Extended xs zs :=
  fun i x found => second i x (first i x found)

theorem push (xs : Array α) (x : α) : Extended xs (xs.push x) := by
  intro i y found
  obtain ⟨inside, -⟩ := Array.getElem?_eq_some_iff.mp found
  rw [Array.getElem?_push_lt inside, ← found, Array.getElem?_eq_getElem inside]

end Extended

/-- The local is the same, and it may have become captured. -/
structure Local.Widened (before after : Local) : Prop where
  name : after.name = before.name
  depth : after.depth = before.depth
  isCaptured : before.isCaptured = true → after.isCaptured = true

/-- The locals keep their slots. There may be more of them. -/
def LocalsKept (before after : Array Local) : Prop :=
  ∀ (i : Nat) (binding : Local), before[i]? = some binding → ∃ kept, after[i]? = some kept ∧ binding.Widened kept

namespace LocalsKept

theorem refl (locals : Array Local) : LocalsKept locals locals :=
  fun _ binding found => ⟨binding, found, rfl, rfl, id⟩

theorem trans {first second third : Array Local} (one : LocalsKept first second) (two : LocalsKept second third) :
    LocalsKept first third := by
  intro i binding found
  obtain ⟨between, found, widened⟩ := one i binding found
  obtain ⟨after, found, widened'⟩ := two i between found
  exact ⟨after, found, widened'.name.trans widened.name, widened'.depth.trans widened.depth,
    widened'.isCaptured ∘ widened.isCaptured⟩

end LocalsKept

namespace FunctionScope

variable {locals : Array Local} {bound : Nat} {before : FunctionScope}

/-- What may happen to a function while another one inside it is compiled. -/
structure Widened (before after : FunctionScope) : Prop where
  kind : after.kind = before.kind
  name : after.name = before.name
  arity : after.arity = before.arity
  chunk : after.chunk = before.chunk
  depth : after.depth = before.depth
  size : after.locals.size = before.locals.size
  locals : LocalsKept before.locals after.locals
  captures : Extended before.captures after.captures

theorem Widened.refl (scope : FunctionScope) : Widened scope scope :=
  ⟨rfl, rfl, rfl, rfl, rfl, rfl, .refl _, .refl _⟩

theorem Widened.trans {first second third : FunctionScope} (one : Widened first second) (two : Widened second third) :
    Widened first third :=
  ⟨two.kind.trans one.kind, two.name.trans one.name, two.arity.trans one.arity, two.chunk.trans one.chunk,
    two.depth.trans one.depth, two.size.trans one.size, one.locals.trans two.locals, one.captures.trans two.captures⟩

def Declares (scope : FunctionScope) (name : String) : Prop :=
  ∃ binding ∈ scope.locals, binding.name = name

/-- The slot holds the innermost local of this name, which can be read. -/
structure Binds (scope : FunctionScope) (name : String) (slot : Nat) : Prop where
  found : ∃ binding, scope.locals[slot]? = some binding ∧ binding.name = name ∧ binding.depth.isSome = true
  innermost : ∀ i binding, slot < i → scope.locals[i]? = some binding → binding.name ≠ name

theorem slotBelow?_some (found : slotBelow? locals name bound = some slot) :
    (∃ binding, locals[slot]? = some binding ∧ binding.name = name) ∧
      ∀ i binding, slot < i → i < bound → locals[i]? = some binding → binding.name ≠ name := by
  induction bound with
  | zero => cases found
  | succ bound ih =>
    simp only [slotBelow?] at found
    split at found
    · next here =>
      cases found
      refine ⟨by simpa [Option.any_eq_true] using here, fun i _ above below => ?_⟩
      omega
    · next other =>
      obtain ⟨held, innermost⟩ := ih found
      refine ⟨held, fun i binding above below at_ same => ?_⟩
      rcases Nat.lt_succ_iff_lt_or_eq.mp below with lower | rfl
      · exact innermost i binding above lower at_ same
      · simp [at_, same] at other

theorem slotBelow?_none (missing : slotBelow? locals name bound = none) :
    ∀ i binding, i < bound → locals[i]? = some binding → binding.name ≠ name := by
  induction bound with
  | zero => intro i binding below; omega
  | succ bound ih =>
    simp only [slotBelow?] at missing
    split at missing
    · cases missing
    · next other =>
      intro i binding below at_ same
      rcases Nat.lt_succ_iff_lt_or_eq.mp below with lower | rfl
      · exact ih missing i binding lower at_ same
      · simp [at_, same] at other

theorem binds_of_slotOf? (found : scope.slotOf? name = .ok (some slot)) : scope.Binds name slot := by
  unfold slotOf? at found
  split at found
  · cases found
  · next below =>
    obtain ⟨⟨binding, at_, same⟩, innermost⟩ := slotBelow?_some below
    split at found
    · next readable =>
      cases found
      refine ⟨⟨binding, at_, same, by simpa [at_] using readable⟩, fun i other above other_at => ?_⟩
      exact innermost i other above (Array.getElem?_eq_some_iff.mp other_at).1 other_at
    · cases found

theorem not_declares_of_slotOf? (missing : scope.slotOf? name = .ok none) : ¬ scope.Declares name := by
  unfold slotOf? at missing
  split at missing
  · next below =>
    rintro ⟨binding, member, same⟩
    obtain ⟨i, inside, at_⟩ := Array.mem_iff_getElem.mp member
    exact slotBelow?_none below i binding inside (at_ ▸ Array.getElem?_eq_getElem inside) same
  · split at missing <;> cases missing

theorem Binds.declares (binds : scope.Binds name slot) : scope.Declares name := by
  obtain ⟨binding, at_, same, -⟩ := binds.found
  exact ⟨binding, Array.mem_of_getElem? at_, same⟩

theorem Binds.unique {first second : Nat} (one : scope.Binds name first) (two : scope.Binds name second) : first = second := by
  obtain ⟨binding, at_, same, -⟩ := one.found
  obtain ⟨binding', at_', same', -⟩ := two.found
  have low : ¬ first < second := fun above => one.innermost _ _ above at_' same'
  have high : ¬ second < first := fun above => two.innermost _ _ above at_ same
  omega

theorem declares_kept (kept : LocalsKept before.locals after.locals)
    (size : after.locals.size = before.locals.size) (name : String) : after.Declares name ↔ before.Declares name := by
  constructor
  · rintro ⟨binding, member, same⟩
    obtain ⟨i, inside, at_⟩ := Array.mem_iff_getElem.mp member
    have inside' : i < before.locals.size := size ▸ inside
    obtain ⟨after, found, widened⟩ := kept i before.locals[i] (Array.getElem?_eq_getElem inside')
    rw [Array.getElem?_eq_getElem inside, at_] at found
    cases found
    exact ⟨_, Array.getElem_mem inside', widened.name.symm.trans same⟩
  · rintro ⟨binding, member, same⟩
    obtain ⟨i, inside, at_⟩ := Array.mem_iff_getElem.mp member
    obtain ⟨after, found, widened⟩ := kept i binding (at_ ▸ Array.getElem?_eq_getElem inside)
    exact ⟨after, Array.mem_of_getElem? found, widened.name.trans same⟩

theorem Binds.kept (keeps : LocalsKept before.locals after.locals)
    (size : after.locals.size = before.locals.size) (binds : before.Binds name slot) : after.Binds name slot := by
  obtain ⟨binding, at_, same, readable⟩ := binds.found
  obtain ⟨later, found, widened⟩ := keeps slot binding at_
  refine ⟨⟨later, found, widened.name.trans same, widened.depth ▸ readable⟩, fun i other above at_' same' => ?_⟩
  have inside : i < before.locals.size := size ▸ (Array.getElem?_eq_some_iff.mp at_').1
  obtain ⟨later, found, widened⟩ := keeps i before.locals[i] (Array.getElem?_eq_getElem inside)
  cases found.symm.trans at_'
  exact binds.innermost i _ above (Array.getElem?_eq_getElem inside) (widened.name.symm.trans same')

theorem markCaptured_getElem? (scope : FunctionScope) (slot i : Nat) :
    (scope.markCaptured slot).locals[i]? =
      scope.locals[i]?.map fun binding => if slot = i then { binding with isCaptured := true } else binding := by
  simp only [markCaptured, Array.getElem?_modify]
  split
  · rfl
  · simp

theorem widened_markCaptured (scope : FunctionScope) (slot : Nat) : Widened scope (scope.markCaptured slot) := by
  refine ⟨rfl, rfl, rfl, rfl, rfl, by simp [markCaptured], ?_, .refl _⟩
  intro i binding found
  rw [markCaptured_getElem?, found]
  refine ⟨_, rfl, ?_⟩
  split
  · exact ⟨rfl, rfl, fun _ => rfl⟩
  · exact ⟨rfl, rfl, id⟩

end FunctionScope

/-- What a capture of a function refers to, given the functions around it: a captured variable that can be read, and what
it is for. -/
inductive Tagged : List FunctionScope → Capture → Role → Prop where
  | slot {outer : FunctionScope} {further : List FunctionScope} {i : Nat} {binding : Local}
      (found : outer.locals[i]? = some binding) (readable : binding.depth.isSome = true) (named : binding.name ≠ "")
      (captured : binding.isCaptured = true) : Tagged (outer :: further) ⟨true, i⟩ (.ofName binding.name)
  | upvalue {outer : FunctionScope} {further : List FunctionScope} {i : Nat} {capture : Capture} {role : Role}
      (found : outer.captures[i]? = some capture) (around : Tagged further capture role) :
      Tagged (outer :: further) ⟨false, i⟩ role

namespace Tagged

theorem unique {first second : Role} (one : Tagged outers capture first) (two : Tagged outers capture second) :
    first = second := by
  induction one with
  | slot found =>
    cases two with
    | slot found' => cases found.symm.trans found'; rfl
  | upvalue found _ ih =>
    cases two with
    | upvalue found' around => cases found.symm.trans found'; exact ih around

theorem widened {outers' : List FunctionScope} (tagged : Tagged outers capture role)
    (wider : List.Forall₂ FunctionScope.Widened outers outers') : Tagged outers' capture role := by
  induction tagged generalizing outers' with
  | slot found readable named captured =>
    cases wider with
    | cons head _ =>
      obtain ⟨after, found', kept⟩ := head.locals _ _ found
      rw [← kept.name] at named ⊢
      exact .slot found' (kept.depth ▸ readable) named (kept.isCaptured captured)
  | upvalue found _ ih =>
    cases wider with
    | cons head tail => exact .upvalue (head.captures _ _ found) (ih tail)

end Tagged

/-- The functions being compiled, the innermost first: their variables fit operands, and their captures refer to
variables around them. -/
def Sound : List FunctionScope → Prop
  | [] => True
  | scope :: outers =>
    scope.locals.size ≤ maxLocals ∧ scope.captures.size ≤ maxCaptures ∧
      (∀ capture ∈ scope.captures, ∃ role, Tagged outers capture role) ∧ Sound outers

theorem widened_refl (scopes : List FunctionScope) : List.Forall₂ FunctionScope.Widened scopes scopes :=
  List.forall₂_same.mpr fun scope _ => .refl scope

theorem widened_trans {first second third : List FunctionScope} (one : List.Forall₂ FunctionScope.Widened first second)
    (two : List.Forall₂ FunctionScope.Widened second third) : List.Forall₂ FunctionScope.Widened first third := by
  induction one generalizing third with
  | nil => cases two; exact .nil
  | cons head _ ih =>
    cases two with
    | cons next rest => exact .cons (head.trans next) (ih rest)

theorem declares_widened {scopes scopes' : List FunctionScope} (wider : List.Forall₂ FunctionScope.Widened scopes scopes')
    (name : String) : (∃ scope ∈ scopes', scope.Declares name) ↔ ∃ scope ∈ scopes, scope.Declares name := by
  induction wider with
  | nil => rfl
  | cons head _ ih => simp only [List.exists_mem_cons_iff, ih, FunctionScope.declares_kept head.locals head.size]

theorem addCapture_ok {index : Nat} (added : scope.addCapture capture = .ok (index, after)) :
    ∃ captures, after = { scope with captures } ∧ Extended scope.captures captures ∧
      captures[index]? = some capture ∧ (scope.captures.size ≤ maxCaptures → captures.size ≤ maxCaptures) ∧
      ∀ other ∈ captures, other ∈ scope.captures ∨ other = capture := by
  unfold FunctionScope.addCapture at added
  split at added
  · next present =>
    cases added
    rw [Array.idxOf?_eq_map_finIdxOf?_val] at present
    obtain ⟨place, found, rfl⟩ := Option.map_eq_some_iff.mp present
    refine ⟨scope.captures, rfl, .refl _, ?_, id, fun _ => .inl⟩
    rw [Array.getElem?_eq_getElem place.isLt]
    exact congrArg some (Array.finIdxOf?_eq_some_iff.mp found).1
  · split at added
    · cases added
    · next room =>
      cases added
      refine ⟨scope.captures.push capture, rfl, .push _ _, by simp, fun fits => ?_, by simp⟩
      rw [Array.size_push]
      omega

theorem Threading.capture_widened (inner : FunctionScope) (outers : List FunctionScope) (capture : Capture) :
    inner.Widened (Threading.capture inner outers capture).inner ∧ (Threading.capture inner outers capture).outers = outers := by
  unfold Threading.capture
  cases added : inner.addCapture capture with
  | error complaint => exact ⟨.refl inner, rfl⟩
  | ok found =>
    obtain ⟨captures, same, extended, -⟩ := addCapture_ok added
    dsimp only
    rw [same]
    exact ⟨⟨rfl, rfl, rfl, rfl, rfl, rfl, .refl _, extended⟩, rfl⟩

theorem thread_widened (name : String) (inner : FunctionScope) (outers : List FunctionScope) :
    inner.Widened (thread name inner outers).inner ∧
      List.Forall₂ FunctionScope.Widened outers (thread name inner outers).outers := by
  induction outers generalizing inner with
  | nil => exact ⟨.refl inner, .nil⟩
  | cons outer further ih =>
    have capturing {outers : List FunctionScope} (capture : Capture)
        (wider : List.Forall₂ FunctionScope.Widened (outer :: further) outers) :
        inner.Widened (Threading.capture inner outers capture).inner ∧
          List.Forall₂ FunctionScope.Widened (outer :: further) (Threading.capture inner outers capture).outers := by
      obtain ⟨widened, kept⟩ := Threading.capture_widened inner outers capture
      rw [kept]
      exact ⟨widened, wider⟩
    have around := List.Forall₂.cons (ih outer).1 (ih outer).2
    rw [thread]
    cases outer.slotOf? name with
    | error complaint => exact ⟨.refl inner, widened_refl _⟩
    | ok slot =>
      cases slot with
      | some slot => exact capturing _ (.cons (FunctionScope.widened_markCaptured outer slot) (widened_refl further))
      | none =>
        dsimp only
        cases (thread name outer further).index with
        | error complaint => exact ⟨.refl inner, around⟩
        | ok index =>
          cases index with
          | some index => exact capturing _ around
          | none => exact ⟨.refl inner, around⟩

/-- What threading a name inwards leaves: the functions around are widened, the inner one has more captures. -/
structure Threaded (inner : FunctionScope) (outers : List FunctionScope) (threading : Threading) : Prop where
  outers : List.Forall₂ FunctionScope.Widened outers threading.outers
  inner : ∃ captures, threading.inner = { inner with captures } ∧ Extended inner.captures captures
  sound : Sound (threading.inner :: threading.outers)

theorem Threading.capture_threaded {wider : List FunctionScope}
    (sound : Sound (inner :: outers)) (sound_wider : Sound wider) (widened : List.Forall₂ FunctionScope.Widened outers wider)
    (tagged : Tagged wider capture role) (captured : (Threading.capture inner wider capture).index = .ok index) :
    Threaded inner outers (.capture inner wider capture) ∧
      ∃ i, index = some i ∧ (Threading.capture inner wider capture).inner.captures[i]? = some capture ∧
        (Threading.capture inner wider capture).outers = wider := by
  unfold Threading.capture at captured ⊢
  split at captured
  · next i after added =>
    cases captured
    obtain ⟨captures, rfl, extended, found, fits, members⟩ := addCapture_ok added
    refine ⟨⟨widened, ⟨captures, rfl, extended⟩, sound.1, fits sound.2.1, ?_, sound_wider⟩, i, rfl, found, rfl⟩
    intro other member
    rcases members other member with old | rfl
    · obtain ⟨tag, tagged⟩ := sound.2.2.1 other old
      exact ⟨tag, tagged.widened widened⟩
    · exact ⟨role, tagged⟩
  · cases captured

theorem thread_ok (named : name ≠ "") (sound : Sound (inner :: outers))
    (found : (thread name inner outers).index = .ok index) : Threaded inner outers (thread name inner outers) ∧
      match index with
      | some i => (∃ capture, (thread name inner outers).inner.captures[i]? = some capture ∧
          Tagged (thread name inner outers).outers capture (.ofName name)) ∧ ∃ outer ∈ outers, outer.Declares name
      | none => ¬ ∃ outer ∈ outers, outer.Declares name := by
  induction outers generalizing inner index with
  | nil =>
    cases found
    exact ⟨⟨.nil, ⟨_, rfl, .refl _⟩, sound⟩, by simp⟩
  | cons outer further ih =>
    cases bound : outer.slotOf? name with
    | error complaint => simp [thread, bound] at found
    | ok slot =>
      cases slot with
      | some slot =>
        -- The function around declares the name: its slot is captured.
        simp only [thread, bound] at found ⊢
        obtain ⟨binding, at_, same, readable⟩ := (FunctionScope.binds_of_slotOf? bound).found
        have widened := FunctionScope.widened_markCaptured outer slot
        have at_' : (outer.markCaptured slot).locals[slot]? = some { binding with isCaptured := true } := by
          rw [FunctionScope.markCaptured_getElem?, at_]
          simp
        have tagged : Tagged (outer.markCaptured slot :: further) ⟨true, slot⟩ (.ofName name) := by
          subst same
          exact @Tagged.slot _ _ _ { binding with isCaptured := true } at_' readable named rfl
        have sound' : Sound (outer.markCaptured slot :: further) :=
          ⟨widened.size ▸ sound.2.2.2.1, sound.2.2.2.2⟩
        obtain ⟨threaded, i, rfl, captured, outers_eq⟩ :=
          Threading.capture_threaded sound sound' (.cons widened (widened_refl further)) tagged found
        refine ⟨threaded, ⟨_, captured, outers_eq.symm ▸ tagged⟩, outer, List.mem_cons_self, ?_⟩
        exact (FunctionScope.binds_of_slotOf? bound).declares
      | none =>
        have absent := FunctionScope.not_declares_of_slotOf? bound
        cases around : (thread name outer further).index with
        | error complaint => simp [thread, bound, around] at found
        | ok reached =>
          obtain ⟨threaded, meaning⟩ := ih sound.2.2.2 around
          obtain ⟨captures, outer_eq, extended⟩ := threaded.inner
          have widened : outer.Widened (thread name outer further).inner := by
            rw [outer_eq]
            exact ⟨rfl, rfl, rfl, rfl, rfl, rfl, .refl _, extended⟩
          cases reached with
          | some i =>
            -- The function around captures the name itself: its capture is handed on.
            simp only [thread, bound, around] at found ⊢
            obtain ⟨⟨capture, at_, tagged⟩, declaring, member, declared⟩ := meaning
            have tagged : Tagged (_ :: (thread name outer further).outers) ⟨false, i⟩ _ := .upvalue at_ tagged
            obtain ⟨threaded', j, rfl, captured, outers_eq⟩ := Threading.capture_threaded sound threaded.sound
              (.cons widened threaded.outers) tagged found
            exact ⟨threaded', ⟨_, captured, outers_eq.symm ▸ tagged⟩, declaring,
              List.mem_cons_of_mem _ member, declared⟩
          | none =>
            -- Nobody declares the name: it is a global.
            simp only [thread, bound, around] at found ⊢
            cases found
            refine ⟨⟨.cons widened threaded.outers, ⟨_, rfl, .refl _⟩, sound.1, sound.2.1, ?_, threaded.sound⟩,
              ?_⟩
            · intro capture member
              obtain ⟨tag, tagged⟩ := sound.2.2.1 capture member
              exact ⟨tag, tagged.widened (.cons widened threaded.outers)⟩
            · simp only [List.exists_mem_cons_iff, not_or]
              exact ⟨absent, meaning⟩

end StackScript.Compile
