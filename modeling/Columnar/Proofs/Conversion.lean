import Mathlib.Data.List.Forall2

/-!
Values converted one after another. A conversion that can fail gives a list if and only if it
converts every value, and otherwise the first value that it rejects says why.
-/
namespace Columnar

variable {convert : α → Except ε β} {values : List α}

theorem mapM_eq_ok_iff {converted : List β} :
    values.mapM convert = .ok converted ↔
      List.Forall₂ (fun value result => convert value = .ok result) values converted := by
  induction values generalizing converted with
  | nil => cases converted <;> simp [pure, Except.pure]
  | cons value values ih =>
    rw [List.mapM_cons]
    cases hvalue : convert value with
    | error cause => cases converted <;> simp [bind, Except.bind, hvalue]
    | ok result =>
      cases hlater : values.mapM convert with
      | error cause => cases converted <;> simp [bind, Except.bind, ← ih, hlater]
      | ok later =>
        cases converted <;> simp [bind, Except.bind, pure, Except.pure, ← ih, hlater, hvalue]

theorem mapM_eq_error_iff {cause : ε} :
    values.mapM convert = .error cause ↔
      ∃ front value back, values = front ++ value :: back ∧
        (∀ earlier ∈ front, ∃ result, convert earlier = .ok result) ∧
        convert value = .error cause := by
  induction values with
  | nil => simp [pure, Except.pure]
  | cons first values ih =>
    cases hfirst : convert first with
    | error given =>
      have hfails : (first :: values).mapM convert = .error given := by
        rw [List.mapM_cons, hfirst]
        rfl
      rw [hfails]
      constructor
      · intro hcause
        exact ⟨[], first, values, rfl, by simp, hfirst.trans (congrArg _ (Except.error.inj hcause))⟩
      · rintro ⟨front, value, back, hvalues, hfront, hvalue⟩
        cases front with
        | nil =>
          obtain ⟨rfl, rfl⟩ := List.cons.inj hvalues
          exact congrArg _ (Except.error.inj (hfirst.symm.trans hvalue))
        | cons earlier front =>
          obtain ⟨rfl, rfl⟩ := List.cons.inj hvalues
          obtain ⟨result, hresult⟩ := hfront first List.mem_cons_self
          simp [hfirst] at hresult
    | ok result =>
      have hlater : (first :: values).mapM convert = .error cause ↔
          values.mapM convert = .error cause := by
        rw [List.mapM_cons, hfirst]
        cases values.mapM convert <;> simp [bind, Except.bind, pure, Except.pure]
      rw [hlater, ih]
      constructor
      · rintro ⟨front, value, back, rfl, hfront, hvalue⟩
        exact ⟨first :: front, value, back, rfl,
          List.forall_mem_cons.mpr ⟨⟨result, hfirst⟩, hfront⟩, hvalue⟩
      · rintro ⟨front, value, back, hvalues, hfront, hvalue⟩
        cases front with
        | nil =>
          obtain ⟨rfl, rfl⟩ := List.cons.inj hvalues
          simp [hfirst] at hvalue
        | cons earlier front =>
          obtain ⟨rfl, rfl⟩ := List.cons.inj hvalues
          exact ⟨front, value, back, rfl, (List.forall_mem_cons.mp hfront).2, hvalue⟩

theorem exists_mapM_iff : (∃ converted, values.mapM convert = .ok converted) ↔
    ∀ value ∈ values, ∃ result, convert value = .ok result := by
  constructor
  · rintro ⟨converted, h⟩
    have hforall := mapM_eq_ok_iff.mp h
    clear h
    induction hforall with
    | nil => simp
    | cons hvalue _ ih => exact List.forall_mem_cons.mpr ⟨⟨_, hvalue⟩, ih⟩
  · intro hall
    cases h : values.mapM convert with
    | ok converted => exact ⟨converted, rfl⟩
    | error cause =>
      obtain ⟨front, value, back, rfl, _, hvalue⟩ := mapM_eq_error_iff.mp h
      obtain ⟨result, hresult⟩ := hall value (by simp)
      simp [hvalue] at hresult

theorem convert_getElem {converted : List β} (h : values.mapM convert = .ok converted) {row : Nat}
    {value : α} {result : β} (hvalue : values[row]? = some value)
    (hresult : converted[row]? = some result) : convert value = .ok result := by
  have hforall := mapM_eq_ok_iff.mp h
  clear h
  induction hforall generalizing row with
  | nil => simp at hvalue
  | cons hfirst _ ih =>
    cases row with
    | zero =>
      obtain rfl := Option.some.inj hvalue
      obtain rfl := Option.some.inj hresult
      exact hfirst
    | succ row => exact ih hvalue hresult

/-- What is read off the results is what the values say. -/
theorem map_of_mapM {converted : List β} {read : β → γ} {write : α → γ}
    (h : values.mapM convert = .ok converted)
    (hread : ∀ value result, convert value = .ok result → read result = write value) :
    converted.map read = values.map write := by
  have hforall := mapM_eq_ok_iff.mp h
  clear h
  induction hforall with
  | nil => rfl
  | cons hvalue _ ih => rw [List.map_cons, List.map_cons, ih, hread _ _ hvalue]

end Columnar
