import StackScript.Proofs.ScriptCode
import StackScript.Session

/-!
Names in a source text. A word that is scanned as a name is not empty and no keyword, in particular not `super` or `this`,
so what a source text compiles to is verified.
-/

namespace StackScript

variable {source : String} {script : Proto}

namespace Scan

theorem punctuation?_ne_identifier {c : Char} {kind : Kind} (found : punctuation? c = some kind) : kind ≠ .identifier := by
  unfold punctuation? at found
  split at found <;> cases found <;> nofun

theorem munchOperator_ne_identifier {c : Char} {alone withEqual : Kind} (found : operator? c = some (alone, withEqual))
    (rest : List Char) : (munchOperator alone withEqual rest).kind ≠ .identifier := by
  have kinds : alone ≠ .identifier ∧ withEqual ≠ .identifier := by
    unfold operator? at found
    split at found <;> cases found <;> exact ⟨nofun, nofun⟩
  unfold munchOperator
  split
  · exact kinds.2
  · exact kinds.1

theorem munch_identifier {first : Char} {rest : List Char} {taken : Munch} (ok : munch first rest = .ok taken)
    (isName : taken.kind = .identifier) : Keyword.ofText? (String.ofList (first :: taken.more)) = none := by
  unfold munch at ok
  split at ok
  · next found =>
    cases ok
    exact absurd isName (punctuation?_ne_identifier found)
  · split at ok
    · next found =>
      cases ok
      exact absurd isName (munchOperator_ne_identifier found rest)
    · split at ok
      · unfold munchString at ok
        split at ok <;> cases ok
        cases isName
      · split at ok
        · unfold munchNumber at ok
          split at ok
          split at ok <;> cases ok
          cases isName
        · split at ok <;> cases ok
          simp only [munchWord] at isName ⊢
          split at isName
          · cases isName
          · assumption

theorem scanFrom_wellNamed {here : Position} {text : List Char} {scanned tokens : Array Token}
    (done : scanFrom here text scanned = .ok tokens) (named : Compile.WellNamed scanned) : Compile.WellNamed tokens := by
  fun_induction scanFrom here text scanned with
  | case1 here text scanned place skipped =>
    cases done
    intro token member isName
    rcases Array.mem_push.mp member with old | rfl
    · exact named token old isName
    · cases isName
  | case2 => cases done
  | case3 here text scanned place first rest skipped token taken lexeme ih =>
    refine ih done fun other member isName => ?_
    rcases Array.mem_push.mp member with old | rfl
    · exact named other old isName
    · have word := munch_identifier taken isName
      have ordinary {text : String} (isKeyword : Keyword.ofText? text ≠ none) : String.ofList (first :: token.more) ≠ text :=
        fun same => isKeyword (same ▸ word)
      refine ⟨fun empty => ?_, Role.ofName_ordinary (ordinary (by decide)) (ordinary (by decide))⟩
      simp [lexeme] at empty

end Scan

theorem scan_wellNamed {tokens : Array Token} (scanned : scan source = .ok tokens) : Compile.WellNamed tokens :=
  Scan.scanFrom_wellNamed scanned nofun

theorem exists_script (compiles : (compileSource source).toBool = true) : ∃ script, compileSource source = .ok script := by
  cases compiled : compileSource source with
  | ok script => exact ⟨script, rfl⟩
  | error failure =>
    rw [compiled] at compiles
    cases compiles

theorem compileSource_ok (compiled : compileSource source = .ok script) :
    ∃ tokens, scan source = .ok tokens ∧ compile tokens = .ok script := by
  unfold compileSource at compiled
  split at compiled
  · cases compiled
  · next scanned =>
    split at compiled
    · cases compiled
    · next ok =>
      cases compiled
      exact ⟨_, scanned, ok⟩

theorem compileSource_sealed (compiled : compileSource source = .ok script) : SealedScript script := by
  obtain ⟨tokens, scanned, compiled⟩ := compileSource_ok compiled
  exact compile_sealed (scan_wellNamed scanned) compiled

theorem compileSource_verified (compiled : compileSource source = .ok script) : VerifiedScript script :=
  (compileSource_sealed compiled).verified

end StackScript
