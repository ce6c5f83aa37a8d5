import Recompile.Proofs.Json.RoundTrip

/-!
# Documents that are cut off

A document that ends with the bracket or brace of its outermost value has no beginning that
is a document as well, also if the cut goes through a character (`Json.ofBytes?_cut`). When
a value of no array or object has ended, only blanks or more of the same number may come,
and a brace is neither; so a beginning that is a document has the closing brace already.
-/

set_option autoImplicit false

namespace Recompile.Json

namespace Reader

/-- The states in which a document may have ended, or a number at its outermost level may
be incomplete. -/
inductive Concluded : State → Prop where
  | after (j : Json) : Concluded ⟨.after j, []⟩
  | number (n : OpenNumber) : Concluded ⟨.inNumber n, []⟩

variable {s s' : State} {j : Json} {c : Char}

/-- A reader that has a result has concluded. -/
theorem concluded_of_result? (h : s.result? = some j) : Concluded s := by
  obtain ⟨place, stack⟩ := s
  cases stack with
  | cons => cases h
  | nil =>
    cases place with
    | after j => exact .after j
    | inNumber n => exact .number n
    | _ => cases h

/-- A reader that goes on behind a value with nothing around it has concluded. -/
theorem concluded_of_followValue (h : followValue [] j c = some s) : Concluded s := by
  unfold followValue at h
  split at h
  · cases h
    exact .after j
  · cases h

namespace Concluded

/-- A reader that has concluded still has after one more symbol, if it takes that. -/
theorem step {symbol : Option Char} (hs : Concluded s) (h : s.step symbol = some s') :
    Concluded s' := by
  cases symbol with
  | none => cases hs <;> cases h
  | some c =>
    cases hs with
    | after j => exact concluded_of_followValue h
    | number n =>
      simp only [State.step] at h
      split at h
      · cases h
        exact .number _
      split at h
      · exact concluded_of_followValue h
      · cases h

/-- What closes an array or object cannot come when none is open. -/
theorem step_close (hs : Concluded s) (hc : c ∈ [']', '\x7d']) : s.step (some c) = none := by
  have hfollow : ∀ j, followValue [] j c = none := by
    intro j
    simp only [List.mem_cons, List.not_mem_nil, or_false] at hc
    rcases hc with rfl | rfl <;> rfl
  cases hs with
  | after j => exact hfollow j
  | number n =>
    have hnext : n.place.next? c = none := next?_eq_none _ (List.mem_cons_of_mem _ hc)
    simp [State.step, OpenNumber.next?, hnext, hfollow]

/-- A reader that has concluded refuses symbols with a closing bracket among them. -/
theorem foldlM_step {symbols : List (Option Char)} (hs : Concluded s) (hc : c ∈ [']', '\x7d'])
    (hmem : some c ∈ symbols) : symbols.foldlM State.step s = none := by
  induction symbols generalizing s with
  | nil => cases hmem
  | cons symbol symbols ih =>
    rw [List.foldlM_cons]
    cases hstep : s.step symbol with
    | none => rfl
    | some s' =>
      rcases List.mem_cons.mp hmem with rfl | hmem
      · rw [hs.step_close hc] at hstep
        cases hstep
      · exact ih (hs.step hstep) hmem

end Concluded

/-- A stray stretch is a part of a text, and inside a text no document ends. -/
theorem result?_of_step_stray (h : s.step none = some s') : s'.result? = none := by
  have hinside : ∀ (stack : List Frame) (t : OpenText),
      State.result? ⟨.inText t, stack⟩ = none ∧
        ∀ done, State.result? ⟨.inKey done t, stack⟩ = none := by
    intro stack t
    cases stack <;> exact ⟨rfl, fun _ => rfl⟩
  have hends : ∀ t : OpenText, t.step none ≠ .ends := by
    intro t
    unfold OpenText.step
    cases t.escape <;> simp
  obtain ⟨place, stack⟩ := s
  cases place with
  | inText t =>
    simp only [State.step] at h
    split at h
    · rename_i hstep
      exact absurd hstep (hends t)
    · cases h
      exact (hinside _ _).1
    · cases h
  | inKey done t =>
    simp only [State.step] at h
    split at h
    · rename_i hstep
      exact absurd hstep (hends t)
    · cases h
      exact (hinside _ _).2 done
    · cases h
  | _ => cases h

end Reader

/-- A document does not end with a stray stretch. -/
theorem ofSymbols?_append_stray (symbols : List (Option Char)) :
    ofSymbols? (symbols ++ [none]) = none := by
  rw [ofSymbols?, List.foldlM_append]
  cases hrun : symbols.foldlM Reader.State.step Reader.State.initial with
  | none => rfl
  | some s =>
    cases hstep : s.step none with
    | none => simp [hstep]
    | some s' => simpa [hstep] using Reader.result?_of_step_stray hstep

/-- Behind a document nothing can be closed. -/
theorem ofSymbols?_append_of_close {symbols more : List (Option Char)} {j : Json} {c : Char}
    (h : ofSymbols? symbols = some j) (hc : c ∈ [']', '\x7d']) (hmem : some c ∈ more) :
    ofSymbols? (symbols ++ more) = none := by
  obtain ⟨s, hrun, hresult⟩ := Option.bind_eq_some_iff.mp h
  have hfail := (Reader.concluded_of_result? hresult).foldlM_step hc hmem
  simp [ofSymbols?, List.foldlM_append, hrun, hfail]

/-- No beginning of the bytes of a document is a document, if a bracket or brace ends it. -/
theorem ofBytes?_cut {bytes more : List UInt8} {body : List Char} {c : Char} {j : Json}
    (h : bytes ++ more = Utf8.encode (body ++ [c])) (hmore : more ≠ [])
    (hc : c ∈ [']', '\x7d']) (hread : ofText? (body ++ [c]) = some j) :
    ofBytes? bytes = none := by
  obtain ⟨kept, lost, hcs, hstray | ⟨hkept, hlost⟩⟩ := Utf8.decode_cut h hmore
  · rw [ofBytes?, hstray]
    exact ofSymbols?_append_stray _
  · rw [ofBytes?, hkept]
    cases hdoc : ofSymbols? (kept.map some) with
    | none => rfl
    | some doc =>
      have hlast : c ∈ lost := by
        have hmem := List.getLast_mem hlost
        have heq : lost.getLast hlost = (body ++ [c]).getLast (by simp) := by
          simp only [hcs, List.getLast_append_of_ne_nil _ hlost]
        rwa [heq, List.getLast_append_of_ne_nil _ (List.cons_ne_nil c []),
          List.getLast_singleton] at hmem
      have hnone := ofSymbols?_append_of_close hdoc hc (List.mem_map_of_mem (f := some) hlast)
      rw [ofText?, hcs, List.map_append, hnone] at hread
      cases hread

end Recompile.Json
