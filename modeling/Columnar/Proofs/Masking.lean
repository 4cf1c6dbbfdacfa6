import Mathlib.Algebra.Group.Nat.Defs
import Columnar.Column

/-!
What a masked conversion gives, row by row. The loop goes over mask and values together, so each
fact is about the first row and the rows behind it. The calls of the conversion are kept by running
the same loop with a conversion that records what it was applied to.
-/
namespace Columnar.NullMask

section Loop

variable [Monad m] [LawfulMonad m]

/-- The rows converted so far stand in front of the others. -/
theorem convertAfter_eq (convert : α → m β) (entries : Bytes) (values : List α)
    (earlier : List (Option β)) :
    convertAfter convert entries values earlier =
      (earlier.reverse ++ ·) <$> mapM ⟨entries⟩ convert values := by
  induction entries generalizing values earlier with
  | nil => simp [mapM, convertAfter]
  | cons entry entries ih =>
    cases values with
    | nil => simp [mapM, convertAfter]
    | cons value values =>
      by_cases hentry : entry = 0
      · simp [mapM, convertAfter, hentry, ih _ (_ :: earlier), ih _ [_]]
      · simp [mapM, convertAfter, hentry, ih _ (_ :: earlier), ih _ [_]]

theorem mapM_shown (convert : α → m β) (entries : Bytes) (value : α) (values : List α) :
    mapM ⟨0 :: entries⟩ convert (value :: values) =
      convert value >>= fun converted =>
        (some converted :: ·) <$> mapM ⟨entries⟩ convert values := by
  simp [mapM, convertAfter, convertAfter_eq _ _ _ [_]]

theorem mapM_null (convert : α → m β) {entry : UInt8} (hentry : entry ≠ 0) (entries : Bytes)
    (value : α) (values : List α) :
    mapM ⟨entry :: entries⟩ convert (value :: values) =
      (none :: ·) <$> mapM ⟨entries⟩ convert values := by
  simp [mapM, convertAfter, hentry, convertAfter_eq _ _ _ [_]]

end Loop

variable {convert : α → Except ε β}

theorem tryMapRecorded_eq (mask : NullMask) (convert : α → Except ε β) (values : List α) :
    mask.tryMapRecorded convert values =
      Prod.map id List.reverse ((mask.mapM (recording convert) values).run.run []).run := rfl

/-- What is recorded is recorded before the conversion can fail. -/
theorem run_recording_bind (convert : α → Except ε β) (value : α)
    (rest : β → ExceptT ε (StateM (List α)) γ) (called : List α) :
    ((recording convert value >>= rest).run.run called).run =
      match convert value with
      | .ok converted => ((rest converted).run.run (value :: called)).run
      | .error cause => (.error cause, value :: called) := by
  unfold recording
  cases convert value with
  | ok converted => rfl
  | error cause => rfl

theorem run_map (f : β → γ) (action : ExceptT ε (StateM (List α)) β) (called : List α) :
    ((f <$> action).run.run called).run =
      Prod.map (Except.map f) id (action.run.run called).run := by
  rw [ExceptT.run_map, StateT.run_map]
  rfl

/-- The record goes on from what it was. -/
theorem run_recording (convert : α → Except ε β) (entries : Bytes) (values called : List α) :
    ((mapM ⟨entries⟩ (recording convert) values).run.run called).run =
      ((tryMapRecorded ⟨entries⟩ convert values).1,
        (tryMapRecorded ⟨entries⟩ convert values).2.reverse ++ called) := by
  induction entries generalizing values called with
  | nil => rfl
  | cons entry entries ih =>
    cases values with
    | nil => rfl
    | cons value values =>
      by_cases hentry : entry = 0
      · subst hentry
        rw [tryMapRecorded_eq, mapM_shown, run_recording_bind, run_recording_bind]
        cases convert value with
        | error cause => rfl
        | ok converted => simp [ih values (value :: called), ih values [value]]
      · rw [tryMapRecorded_eq, mapM_null _ hentry, run_map, run_map, ih values called, ih values []]
        simp

section Recorded

variable {convert : α → Except ε β} {entries : Bytes} {value : α} {values : List α}

theorem recorded_null {entry : UInt8} (hentry : entry ≠ 0) :
    tryMapRecorded ⟨entry :: entries⟩ convert (value :: values) =
      (tryMapRecorded ⟨entries⟩ convert values).map (Except.map (none :: ·)) id := by
  rw [tryMapRecorded_eq, mapM_null _ hentry, run_map]
  rfl

theorem recorded_ok {converted : β} (hvalue : convert value = .ok converted) :
    tryMapRecorded ⟨0 :: entries⟩ convert (value :: values) =
      (tryMapRecorded ⟨entries⟩ convert values).map (Except.map (some converted :: ·))
        (value :: ·) := by
  rw [tryMapRecorded_eq, mapM_shown, run_recording_bind, hvalue]
  simp [run_recording, Prod.map]

theorem recorded_error {cause : ε} (hvalue : convert value = .error cause) :
    tryMapRecorded ⟨0 :: entries⟩ convert (value :: values) = (.error cause, [value]) := by
  rw [tryMapRecorded_eq, mapM_shown, run_recording_bind, hvalue]
  rfl

end Recorded

/-- A conversion that is recorded gives what it gives otherwise. -/
theorem tryMapRecorded_fst (mask : NullMask) (convert : α → Except ε β) (values : List α) :
    (mask.tryMapRecorded convert values).1 = mask.tryMap convert values := by
  obtain ⟨entries⟩ := mask
  rw [tryMap]
  induction entries generalizing values with
  | nil => rfl
  | cons entry entries ih =>
    cases values with
    | nil => rfl
    | cons value values =>
      by_cases hentry : entry = 0
      · subst hentry
        rw [mapM_shown, ← ih values]
        cases hvalue : convert value with
        | error cause =>
          rw [recorded_error hvalue]
          rfl
        | ok converted =>
          rw [recorded_ok hvalue]
          rfl
      · rw [mapM_null _ hentry, recorded_null hentry, ← ih values]
        rfl

/-- The rows before `stop` that are not null, in order. -/
def shown (mask : NullMask) (stop : Nat) : List Nat :=
  (List.range stop).filter fun row => mask.entries[row]? = some 0

theorem shown_cons (entry : UInt8) (entries : Bytes) (stop : Nat) :
    shown ⟨entry :: entries⟩ (stop + 1) =
      (if entry = 0 then [0] else []) ++ (shown ⟨entries⟩ stop).map Nat.succ := by
  have hlater : (List.map Nat.succ (List.range stop)).filter
        (fun row => (entry :: entries)[row]? = some 0) = (shown ⟨entries⟩ stop).map Nat.succ := by
    rw [List.filter_map]
    rfl
  rw [shown, List.range_succ_eq_map, List.filter_cons, hlater]
  by_cases hentry : entry = 0
  · simp [hentry]
  · simp [hentry]

/-- A column is converted row by row: the null rows have no value, the others are converted in
order, and the first that cannot be converted is the last that is tried. -/
structure RowWise (mask : NullMask) (convert : α → Except ε β) (value : Nat → α)
    (result : Except ε (List (Option β))) (called : List α) : Prop where
  converts : (∃ column, result = .ok column) ↔
    ∀ row, mask.entries[row]? = some 0 → ∃ converted, convert (value row) = .ok converted
  rows : ∀ column, result = .ok column → column.length = mask.length ∧
    (∀ row entry, mask.entries[row]? = some entry →
      column[row]? = some (if entry = 0 then (convert (value row)).toOption else none)) ∧
    called = (mask.shown mask.length).map value
  first : ∀ cause, result = .error cause → ∃ row, mask.entries[row]? = some 0 ∧
    convert (value row) = .error cause ∧
    (∀ earlier < row, mask.entries[earlier]? = some 0 →
      ∃ converted, convert (value earlier) = .ok converted) ∧
    called = (mask.shown (row + 1)).map value

variable {convert : α → Except ε β} {value : Nat → α} {entries : Bytes}
  {result : Except ε (List (Option β))} {called : List α}

theorem map_eq_ok_iff {answer : Except ε γ} {f : γ → β} {b : β} :
    answer.map f = .ok b ↔ ∃ a, answer = .ok a ∧ f a = b := by
  cases answer with
  | error cause => simp [Except.map]
  | ok a => simp [Except.map]

theorem map_eq_error_iff {answer : Except ε γ} {f : γ → β} {cause : ε} :
    answer.map f = .error cause ↔ answer = .error cause := by
  cases answer with
  | error given => simp [Except.map]
  | ok a => simp [Except.map]

/-- A row that is null or can be converted stands in front of those behind it. -/
theorem RowWise.cons {entry : UInt8} (slot : Option β) (first : List α)
    (h : RowWise ⟨entries⟩ convert (value ∘ Nat.succ) result called)
    (hslot : slot = if entry = 0 then (convert (value 0)).toOption else none)
    (hfirst : first = if entry = 0 then [value 0] else [])
    (hconverts : entry = 0 → ∃ converted, convert (value 0) = .ok converted) :
    RowWise ⟨entry :: entries⟩ convert value (result.map (slot :: ·)) (first ++ called) := by
  have hcalled (stop : Nat) (hlater : called = (shown ⟨entries⟩ stop).map (value ∘ Nat.succ)) :
      first ++ called = (shown ⟨entry :: entries⟩ (stop + 1)).map value := by
    rw [shown_cons, List.map_append, List.map_map, ← hlater, hfirst]
    split
    · rfl
    · rfl
  constructor
  case converts =>
    have hok : (∃ column, result.map (slot :: ·) = .ok column) ↔ ∃ column, result = .ok column := by
      simp only [map_eq_ok_iff]
      rw [exists_comm]
      simp
    rw [hok, h.converts]
    constructor
    · intro hall row hrow
      cases row with
      | zero => exact hconverts (by simpa using hrow)
      | succ row => exact hall row hrow
    · intro hall row hrow
      exact hall (row + 1) hrow
  case rows =>
    intro column hcolumn
    obtain ⟨later, hresult, rfl⟩ := map_eq_ok_iff.mp hcolumn
    obtain ⟨hlength, hrows, hlater⟩ := h.rows later hresult
    refine ⟨congrArg Nat.succ hlength, ?_, hcalled _ hlater⟩
    intro row given hrow
    cases row with
    | zero =>
      obtain rfl : entry = given := by simpa using hrow
      rw [List.getElem?_cons_zero, hslot]
    | succ row => exact hrows row given hrow
  case first =>
    intro cause hcause
    obtain ⟨row, hshown, hfails, hearlier, hlater⟩ := h.first cause (map_eq_error_iff.mp hcause)
    refine ⟨row + 1, hshown, hfails, ?_, hcalled _ hlater⟩
    intro earlier hless hrow
    cases earlier with
    | zero => exact hconverts (by simpa using hrow)
    | succ earlier => exact hearlier earlier (Nat.lt_of_succ_lt_succ hless) hrow

/-- A row that is not null and cannot be converted ends the conversion. -/
theorem RowWise.failed {cause : ε} (hvalue : convert (value 0) = .error cause) :
    RowWise ⟨0 :: entries⟩ convert value (.error cause : Except ε (List (Option β))) [value 0] := by
  constructor
  case converts =>
    constructor
    · rintro ⟨_, ⟨⟩⟩
    · intro hall
      obtain ⟨converted, hconverted⟩ := hall 0 rfl
      simp [hvalue] at hconverted
  case rows => exact fun _ hcolumn => nomatch hcolumn
  case first =>
    intro given hgiven
    obtain rfl := Except.error.inj hgiven
    exact ⟨0, rfl, hvalue, fun _ hless => absurd hless (Nat.not_lt_zero _), by simp [shown]⟩

theorem map_range_cons (entry : UInt8) (entries : Bytes) (value : Nat → α) :
    (List.range (length ⟨entry :: entries⟩)).map value =
      value 0 :: (List.range (length ⟨entries⟩)).map (value ∘ Nat.succ) := by
  rw [length, length, List.length_cons, List.range_succ_eq_map, List.map_cons, List.map_map]

/-- A masked conversion is row-wise, whatever stands in the null rows. -/
theorem rowWise (mask : NullMask) (convert : α → Except ε β) (value : Nat → α) :
    RowWise mask convert value
      (mask.tryMapRecorded convert ((List.range mask.length).map value)).1
      (mask.tryMapRecorded convert ((List.range mask.length).map value)).2 := by
  obtain ⟨entries⟩ := mask
  induction entries generalizing value with
  | nil =>
    constructor
    case converts => exact ⟨fun _ row hrow => by simp at hrow, fun _ => ⟨[], rfl⟩⟩
    case rows =>
      intro column hcolumn
      obtain rfl := Except.ok.inj hcolumn
      exact ⟨rfl, fun row entry hrow => by simp at hrow, rfl⟩
    case first => exact fun _ hcause => nomatch hcause
  | cons entry entries ih =>
    -- the rows behind the first are those of the shorter mask, one number lower
    have hlater := ih (value ∘ Nat.succ)
    rw [map_range_cons]
    by_cases hentry : entry = 0
    · subst hentry
      cases hvalue : convert (value 0) with
      | error cause =>
        rw [recorded_error hvalue]
        exact .failed hvalue
      | ok converted =>
        rw [recorded_ok hvalue]
        exact hlater.cons (some converted) [value 0] (by rw [hvalue]; rfl) rfl
          fun _ => ⟨converted, hvalue⟩
    · rw [recorded_null hentry]
      exact hlater.cons none [] (if_neg hentry).symm (if_neg hentry).symm
        fun hzero => absurd hzero hentry

/-- Only which rows are null matters, and what stands in the others. -/
theorem tryMapRecorded_congr (convert : α → Except ε β) {mask mask' : NullMask}
    {value value' : Nat → α} (hlength : mask.length = mask'.length)
    (hnull : ∀ row : Nat, mask.entries[row]? = some 0 ↔ mask'.entries[row]? = some 0)
    (hvalue : ∀ row : Nat, mask.entries[row]? = some 0 → value row = value' row) :
    mask.tryMapRecorded convert ((List.range mask.length).map value) =
      mask'.tryMapRecorded convert ((List.range mask'.length).map value') := by
  obtain ⟨entries⟩ := mask
  obtain ⟨entries'⟩ := mask'
  induction entries generalizing entries' value value' with
  | nil =>
    obtain rfl : entries' = [] := List.length_eq_zero_iff.mp hlength.symm
    rfl
  | cons entry entries ih =>
    cases entries' with
    | nil => cases hlength
    | cons entry' entries' =>
      have hlater : tryMapRecorded ⟨entries⟩ convert
            ((List.range (length ⟨entries⟩)).map (value ∘ Nat.succ)) =
          tryMapRecorded ⟨entries'⟩ convert
            ((List.range (length ⟨entries'⟩)).map (value' ∘ Nat.succ)) :=
        ih (fun row => hvalue (row + 1)) entries' (Nat.succ.inj hlength) fun row => hnull (row + 1)
      have hfirst : entry = 0 ↔ entry' = 0 := by simpa using hnull 0
      rw [map_range_cons, map_range_cons]
      by_cases hentry : entry = 0
      · obtain rfl := hfirst.mp hentry
        subst hentry
        rw [← hvalue 0 rfl]
        cases hconverted : convert (value 0) with
        | error cause => rw [recorded_error hconverted, recorded_error hconverted]
        | ok converted => rw [recorded_ok hconverted, recorded_ok hconverted, hlater]
      · rw [recorded_null hentry, recorded_null (mt hfirst.mpr hentry), hlater]

theorem tryMap_null (convert : α → Except ε β) {entry : UInt8} (hentry : entry ≠ 0)
    (entries : Bytes) (value : α) (values : List α) :
    tryMap ⟨entry :: entries⟩ convert (value :: values) =
      (tryMap ⟨entries⟩ convert values).map (none :: ·) :=
  mapM_null convert hentry entries value values

theorem tryMap_shown (convert : α → Except ε β) (entries : Bytes) (value : α) (values : List α) :
    tryMap ⟨0 :: entries⟩ convert (value :: values) =
      (convert value).bind fun converted =>
        (tryMap ⟨entries⟩ convert values).map (some converted :: ·) :=
  mapM_shown convert entries value values

/-- Where all values can be converted, the mask may be applied afterwards. -/
theorem tryMap_eq_apply {convert : α → Except ε β} {values : List α} {converted : List β}
    (h : values.mapM convert = .ok converted) (mask : NullMask) :
    mask.tryMap convert values = .ok (mask.apply converted) := by
  obtain ⟨entries⟩ := mask
  induction values generalizing entries converted with
  | nil =>
    obtain rfl := Except.ok.inj h
    cases entries with
    | nil => rfl
    | cons => rfl
  | cons value values ih =>
    rw [List.mapM_cons] at h
    cases hvalue : convert value with
    | error cause => simp [hvalue, bind, Except.bind] at h
    | ok first =>
      cases hvalues : values.mapM convert with
      | error cause => simp [hvalue, hvalues, bind, Except.bind] at h
      | ok later =>
        simp only [hvalue, hvalues, bind, Except.bind, pure, Except.pure, Except.ok.injEq] at h
        subst h
        cases entries with
        | nil => rfl
        | cons entry entries =>
          by_cases hentry : entry = 0
          · subst hentry
            rw [tryMap_shown, hvalue, ih hvalues]
            rfl
          · rw [tryMap_null _ hentry, ih hvalues]
            simp [Except.map, apply, hentry]

/-- Without null rows a masked conversion is the plain one, with the same error. -/
theorem tryMap_eq_mapM (convert : α → Except ε β) {values : List α} {mask : NullMask}
    (hnone : ∀ entry ∈ mask.entries, entry = 0) (hlength : mask.length = values.length) :
    mask.tryMap convert values = (values.mapM convert).map (List.map some) := by
  obtain ⟨entries⟩ := mask
  induction entries generalizing values with
  | nil =>
    obtain rfl : values = [] := List.length_eq_zero_iff.mp hlength.symm
    rfl
  | cons entry entries ih =>
    cases values with
    | nil => cases hlength
    | cons value values =>
      obtain ⟨rfl, hlater⟩ := List.forall_mem_cons.mp hnone
      rw [tryMap_shown, ih hlater (Nat.succ.inj hlength), List.mapM_cons]
      cases convert value with
      | error cause => rfl
      | ok first =>
        cases values.mapM convert with
        | error cause => rfl
        | ok later => rfl

end Columnar.NullMask
