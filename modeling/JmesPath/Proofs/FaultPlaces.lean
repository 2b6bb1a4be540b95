import Mathlib
import JmesPath.Proofs.Grammar.Faults
import JmesPath.Proofs.Lexing.Places

/-! # Where the faults of queries are

* `ParseError.found?` — what a fault says was found
* `foundName_eq_iff` — only the end of a query has the name of the end
* `compile_fault_place` — a query that does not compile has a faulty word, or a fault that is
  about the tokens at its place
-/

namespace JmesPath

open Grammar

/-- What a fault says was found at its place: a token, or the end of the query. -/
def ParseError.found? : ParseError → Option (Option Token)
  | .unexpected found _ => some found
  | .expected _ found _ => some found
  | .quotedFunctionName _ => none
  | .invalidFunctionTarget _ => none
  | .trailingComma _ => none
  | .nestingTooDeep .. => none

theorem foundName_eq_iff {found : Option Token} : foundName found = "EOF" ↔ found = none := by
  cases found with
  | none => simp [foundName]
  | some t =>
    refine iff_of_false ?_ nofun
    cases t with
    | compare op => cases op <;> simp [foundName, Token.name]
    | _ => simp [foundName, Token.name]

theorem Grammar.Blames.found_eq {limit stop : Nat} {ts : List Located} {fault : ParseError}
    (h : Blames limit stop ts fault) {found : Option Token} (hfound : fault.found? = some found) :
    found = peek ts := by
  cases h with
  | unexpected | expected => exact (Option.some.inj hfound).symm
  | _ => cases hfound

/-- What a fault finds is the end of the query if it is reported there, and only then. -/
theorem Grammar.Blames.found_end_iff {limit stop : Nat} {ts : List Located} {fault : ParseError}
    (h : Blames limit stop ts fault) (hts : ∀ t ∈ ts, t.start < stop) {found : Option Token}
    (hfound : fault.found? = some found) :
    foundName found = "EOF" ↔ fault.position = stop := by
  rw [foundName_eq_iff, h.found_eq hfound, h.position]
  cases ts with
  | nil => exact iff_of_true rfl rfl
  | cons t ts => exact iff_of_false nofun (Nat.ne_of_lt (hts t List.mem_cons_self))

/-- A query that does not compile has a faulty word, which starts in front of its end; or it
    has tokens, and a fault that is about those at its place and behind it.  A fault finds the
    end of the query exactly if it is reported there. -/
theorem compile_fault_place {limit : Nat} {source : List Char} {fault : CompileError}
    (h : compile limit source = .error fault) :
    (∃ e, fault = .lex e ∧ tokenize source = .error e ∧ e.position < source.length) ∨
    ∃ e ts, fault = .parse e ∧ tokenize source = .ok ts ∧
      (∀ t ∈ ts, t.start < source.length) ∧
      ∃ us, us <:+ ts ∧ e.position = place source.length us ∧
        Blames limit source.length us e ∧
        ∀ found, e.found? = some found →
          (foundName found = "EOF" ↔ e.position = source.length) := by
  unfold compile at h
  split at h
  · next e he =>
    cases h
    exact .inl ⟨e, rfl, he, Cursor.position_lt (Cursor.in_start source) he⟩
  · next ts hts =>
    split at h
    · next e he =>
      cases h
      have hstarts := Cursor.start_lt (Cursor.in_start source) hts
      obtain ⟨us, hus, hblames⟩ := parse_blames he
      exact .inr ⟨e, ts, rfl, hts, hstarts, us, hus, hblames.position, hblames,
        fun found hfound => hblames.found_end_iff (fun t ht => hstarts t (hus.subset ht)) hfound⟩
    · cases h

/-- A call that does not end. -/
theorem compile_fault_place_of_call :
    ∃ e ts us, compile defaultLimit "f(a".toList = .error (.parse e) ∧
      tokenize "f(a".toList = .ok ts ∧ us <:+ ts ∧ e.position = 3 ∧
      Blames defaultLimit 3 us e ∧ foundName (peek us) = "EOF" := by
  have hcompile : compile defaultLimit "f(a".toList =
      .error (.parse (.expected .closeParen none 3)) := by cbv
  rcases compile_fault_place hcompile with
    ⟨e, he, -⟩ | ⟨e, ts, he, hts, -, us, hus, -, hblames, hend⟩
  · cases he
  · cases he
    refine ⟨_, ts, us, hcompile, hts, hus, rfl, hblames, ?_⟩
    rw [← hblames.found_eq rfl]
    exact (hend none rfl).2 rfl

end JmesPath
