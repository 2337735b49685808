import StackScript.Proofs.Actions
import StackScript.Proofs.Conduct
import StackScript.Proofs.HostMembers
import StackScript.Proofs.LineTables
import StackScript.Proofs.StackHeights

/-!
Where the code comes from that a machine runs, and where its faults come from. Functions are put on the heap by running code
that lists them, so a machine that starts with functions from source texts never gets others, unless a native function forges
them. A fault is reported at the place of the instruction, or without a place, or by a native function in its own words.
-/

namespace StackScript

/-- A source text compiles to the function, or to a script that it stands in. -/
def Proto.FromSource (proto : Proto) : Prop :=
  ∃ source script, compileSource source = .ok script ∧ script.Contains proto

theorem Opcode.toByte_of_ofByte? {byte : UInt8} {op : Opcode} (decoded : ofByte? byte = some op) : op.toByte = byte := by
  have listed : ∀ i : Fin all.size, (all[i]).toByte.toNat = i := by decide
  obtain ⟨inside, rfl⟩ := Array.getElem?_eq_some_iff.mp decoded
  exact UInt8.toNat_inj.mp (listed ⟨byte.toNat, inside⟩)

theorem Chunk.Decodes.next? {chunk : Chunk Proto} {first second third : Nat} (one : chunk.Decodes first second)
    (two : chunk.Decodes first third) (before : second < third) : ∃ next, chunk.next? second = some next := by
  induction one with
  | done offset =>
    cases two with
    | done => exact absurd before (Nat.lt_irrefl _)
    | step whole rest => exact ⟨_, whole⟩
  | step whole rest ih =>
    cases two with
    | done => exact absurd (Nat.lt_of_le_of_lt rest.le before) (Nat.not_lt_of_ge (Nat.le_of_lt (Chunk.next?_gt whole)))
    | step whole' rest' =>
      cases Option.some.inj (whole.symm.trans whole')
      exact ih rest' before

namespace Proto.FromSource

variable {proto : Proto} {offset : Nat}

section

variable (origin : proto.FromSource)
include origin

theorem nested {inner : Proto} (member : inner ∈ proto.chunk.functions) : inner.FromSource := by
  obtain ⟨source, script, compiled, inside⟩ := origin
  exact ⟨source, script, compiled, .nested inside member⟩

theorem wellFormed : proto.WellFormed := by
  obtain ⟨source, script, compiled, contains⟩ := origin
  have done := compileSource_sealed compiled
  rcases done.contains contains with rfl | inner
  · exact done.wellFormed
  · exact inner.wellFormed

theorem starts (reachable : proto.chunk.Reachable offset) : proto.chunk.Starts offset := by
  obtain ⟨source, script, compiled, inside⟩ := origin
  obtain ⟨height, heights⟩ := (compileSource_sealed compiled).heights inside
  exact heights.starts offset reachable

theorem lineAt (reachable : proto.chunk.Reachable offset) : 1 ≤ proto.chunk.lineAt offset := by
  have starts := origin.starts reachable
  obtain ⟨source, script, compiled, inside⟩ := origin
  obtain ⟨tokens, scanned, lined⟩ := compileSource_lined compiled
  obtain ⟨token, member, line⟩ := (lined.contains inside).lines.lineAt starts.2
  exact line ▸ (scan_ordered scanned).lines token member

theorem whole (reachable : proto.chunk.Reachable offset) :
    ∃ op, proto.chunk.OpAt offset op ∧ proto.chunk.next? offset = some (Listing.operands proto.chunk offset op).2 ∧
      (Listing.operands proto.chunk offset op).2 ≤ proto.chunk.code.size := by
  obtain ⟨decodes, inside⟩ := origin.starts reachable
  obtain ⟨next, next_eq⟩ := decodes.next? origin.wellFormed.decodes inside
  obtain ⟨op, read, found⟩ := Option.bind_eq_some_iff.mp next_eq
  obtain ⟨byte, byte_at, decoded⟩ := Option.bind_eq_some_iff.mp read
  split at found
  · next fits =>
    cases found
    exact ⟨op, by rw [Chunk.OpAt, byte_at, Opcode.toByte_of_ofByte? decoded], next_eq, fits⟩
  · cases found

end

end Proto.FromSource

def Object.FromSource : Object → Prop
  | .function proto => proto.FromSource
  | .closure made => made.function.FromSource
  | _ => True

def Heap.FromSource (heap : Heap) : Prop :=
  ∀ ref object, heap.get? ref = some object → object.FromSource

namespace Heap.FromSource

variable {heap : Heap}

theorem push (origin : heap.FromSource) {object : Object} (known : object.FromSource) : (heap.push object).FromSource := by
  intro ref other found
  rw [Heap.get?_push] at found
  split at found
  · cases found
    exact known
  · exact origin ref other found

theorem set (origin : heap.FromSource) {object : Object} (known : object.FromSource) (ref : Ref) :
    (heap.set ref object).FromSource := by
  intro other found isThere
  rw [Heap.get?, Heap.set, Array.getElem?_setIfInBounds] at isThere
  split at isThere
  · split at isThere
    · cases isThere
      exact known
    · cases isThere
  · exact origin other found isThere

end Heap.FromSource

theorem Heap.Gains.fromSource {before after : Heap} (gains : before.Gains after) (origin : before.FromSource) : after.FromSource := by
  rcases gains with rfl | ⟨object, leaf, rfl⟩
  · exact origin
  · exact origin.push (by cases object <;> trivial)

section Fetching

variable (heap : Heap) (ref : Ref)

theorem Heap.fetchClass_unplaced : Unplaced (heap.fetchClass ref) := by
  refine (heap.fetch_unplaced ref).bind fun object => ?_
  split
  · exact .ok _
  · exact .fault _

theorem Heap.fetchClosure_unplaced : Unplaced (heap.fetchClosure ref) := by
  refine (heap.fetch_unplaced ref).bind fun object => ?_
  split
  · exact .ok _
  · exact .fault _

theorem Heap.fetchUpvalue_unplaced : Unplaced (heap.fetchUpvalue ref) := by
  refine (heap.fetch_unplaced ref).bind fun object => ?_
  split
  · exact .ok _
  · exact .fault _

theorem Exec.spotFrom_unplaced (slot bound : Nat) (previous current : Option Ref) :
    Unplaced (Exec.spotFrom heap slot bound previous current) := by
  induction bound generalizing previous current with
  | zero => exact .ok _
  | succ bound ih =>
    cases current with
    | none => exact .ok _
    | some ref =>
      refine (heap.fetchUpvalue_unplaced ref).bind fun upvalue => ?_
      split
      · exact .ok _
      · split
        · exact .ok _
        · split
          · exact .ok _
          · exact ih _ _

end Fetching

namespace Host

variable {State : Type}

theorem Registry.lookup_unplaced (hosts : Registry State) (object : Handle) (name : String) :
    Unplaced (hosts.lookup object name) := by
  unfold Registry.lookup
  split
  · exact .ok _
  · exact .fault _

end Host

end StackScript
