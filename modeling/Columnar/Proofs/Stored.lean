import Columnar.Config.Json
import Columnar.Proofs.Json.Literals
import Columnar.Proofs.Json.Reading

/-!
Configurations in their stored form. A JSON object is read as the defaults with the settings that
it gives over them, wherever these stand, however the text spells them and whatever else is in the
object. A setting that is given twice, or with a value that means nothing for it, makes the object
unreadable, and so does anything but blanks behind it. What is written is read back as it was.
-/
namespace Columnar

open DecoderConfig (encoding? size? setOnce Given ofGiven ofJsonText?)
open DecoderConfig.Given (addMember ofMembers?)
open Json (Spells Spelled Blanks blanks_nil spelled_bare spelled_plain)

section Lookup

variable {α : Type} {name : String} {members : List (Option String × Json)}

/-- What the members of an object give to a name, in their order. -/
def valuesOf (name : String) (members : List (Option String × Json)) : List Json :=
  members.filterMap fun member => if member.1 = some name then some member.2 else none

/-- What the member does to the setting `name`. -/
def setField (name : String) (parse : Json → Option α) (current : Option α)
    (member : Option String × Json) : Option (Option α) :=
  if member.1 = some name then setOnce current (parse member.2) else some current

/-- The value of a setting: the default if it is not given, else what it is given once means. -/
def Setting (name : String) (members : List (Option String × Json)) (Means : Json → α → Prop)
    (fallback value : α) : Prop :=
  (valuesOf name members = [] ∧ value = fallback) ∨
    ∃ given, valuesOf name members = [given] ∧ Means given value

@[simp] theorem valuesOf_nil : valuesOf name [] = [] := rfl

@[simp] theorem valuesOf_cons_self (value : Json) :
    valuesOf name ((some name, value) :: members) = value :: valuesOf name members := by
  simp [valuesOf]

theorem valuesOf_cons_of_ne {member : Option String × Json} (h : member.1 ≠ some name) :
    valuesOf name (member :: members) = valuesOf name members := by
  simp [valuesOf, h]

theorem setField_of_ne {parse : Json → Option α} {current : Option α}
    {member : Option String × Json} (h : member.1 ≠ some name) :
    setField name parse current member = some current := if_neg h

/-- A setting that has a value already is given no more. -/
theorem foldlM_setField_some {parse : Json → Option α} {value : α} {final : Option α} :
    members.foldlM (setField name parse) (some value) = some final ↔
      valuesOf name members = [] ∧ final = some value := by
  induction members with
  | nil =>
    rw [List.foldlM_nil, valuesOf_nil]
    exact ⟨fun h => ⟨rfl, (Option.some.inj h).symm⟩, fun h => congrArg some h.2.symm⟩
  | cons member members ih =>
    rw [List.foldlM_cons]
    by_cases hname : member.1 = some name
    · obtain ⟨key, given⟩ := member
      subst hname
      rw [setField, if_pos rfl, valuesOf_cons_self]
      exact ⟨nofun, fun h => absurd h.1 (List.cons_ne_nil _ _)⟩
    · rw [setField_of_ne hname, valuesOf_cons_of_ne hname]
      exact ih

/-- One that has none is given at most once, with a value that can be read. -/
theorem foldlM_setField_none {parse : Json → Option α} {final : Option α} :
    members.foldlM (setField name parse) none = some final ↔
      (valuesOf name members = [] ∧ final = none) ∨
        ∃ given value, valuesOf name members = [given] ∧ parse given = some value ∧
          final = some value := by
  induction members with
  | nil =>
    rw [List.foldlM_nil, valuesOf_nil]
    constructor
    · exact fun h => .inl ⟨rfl, (Option.some.inj h).symm⟩
    · rintro (⟨_, rfl⟩ | ⟨_, _, hnone, _⟩)
      · rfl
      · cases hnone
  | cons member members ih =>
    rw [List.foldlM_cons]
    by_cases hname : member.1 = some name
    · obtain ⟨key, given⟩ := member
      subst hname
      rw [setField, if_pos rfl, valuesOf_cons_self]
      cases hparse : parse given with
      | none =>
        refine ⟨nofun, ?_⟩
        rintro (⟨hnil, _⟩ | ⟨other, value, hsingle, hother, _⟩)
        · cases hnil
        · obtain rfl := (List.cons.inj hsingle).1
          rw [hparse] at hother
          cases hother
      | some value =>
        change members.foldlM (setField name parse) (some value) = some final ↔ _
        rw [foldlM_setField_some]
        constructor
        · rintro ⟨hlater, rfl⟩
          exact .inr ⟨given, value, by rw [hlater], hparse, rfl⟩
        · rintro (⟨hnil, _⟩ | ⟨other, read, hsingle, hother, rfl⟩)
          · cases hnil
          · obtain ⟨rfl, hlater⟩ := List.cons.inj hsingle
            rw [hparse] at hother
            exact ⟨hlater, hother.symm⟩
    · rw [setField_of_ne hname, valuesOf_cons_of_ne hname]
      exact ih

theorem mem_valuesOf {value : Json} :
    value ∈ valuesOf name members ↔ (some name, value) ∈ members := by
  rw [valuesOf, List.mem_filterMap]
  constructor
  · rintro ⟨⟨key, given⟩, hmember, hvalue⟩
    split at hvalue
    · next hname =>
      obtain rfl := Option.some.inj hvalue
      exact hname ▸ hmember
    · cases hvalue
  · exact fun hmember => ⟨_, hmember, if_pos rfl⟩

end Lookup

section Reading

variable {members : List (Option String × Json)} {given final : Given}

/-- One member touches one setting at most, and needs a name. -/
theorem addMember_eq_some_iff {member : Option String × Json} :
    given.addMember member = some final ↔ member.1 ≠ none ∧
      setField "encoding" encoding? given.encoding member = some final.encoding ∧
      setField "initial_scratch_capacity" size? given.initialScratchCapacity member =
        some final.initialScratchCapacity ∧
      setField "max_read_size" size? given.maxReadSize member = some final.maxReadSize ∧
      setField "reader_chunk_size" size? given.readerChunkSize member =
        some final.readerChunkSize := by
  obtain ⟨key, value⟩ := member
  obtain ⟨encoding, capacity, limit, chunk⟩ := given
  obtain ⟨encoding', capacity', limit', chunk'⟩ := final
  cases key with
  | none => simp [addMember]
  | some name =>
    simp only [addMember, setField, Option.some.injEq]
    -- the four names exclude each other, so a member is tested against three of them in vain
    split
    · next h => subst h; grind [Option.map_eq_some_iff]
    split
    · next h => subst h; grind [Option.map_eq_some_iff]
    split
    · next h => subst h; grind [Option.map_eq_some_iff]
    split
    · next h => subst h; grind [Option.map_eq_some_iff]
    · grind

/-- The members together: each setting goes its own way. -/
theorem foldlM_addMember_eq_some_iff :
    members.foldlM addMember given = some final ↔ (∀ member ∈ members, member.1 ≠ none) ∧
      members.foldlM (setField "encoding" encoding?) given.encoding = some final.encoding ∧
      members.foldlM (setField "initial_scratch_capacity" size?) given.initialScratchCapacity =
        some final.initialScratchCapacity ∧
      members.foldlM (setField "max_read_size" size?) given.maxReadSize =
        some final.maxReadSize ∧
      members.foldlM (setField "reader_chunk_size" size?) given.readerChunkSize =
        some final.readerChunkSize := by
  induction members generalizing given with
  | nil =>
    obtain ⟨encoding, capacity, limit, chunk⟩ := given
    obtain ⟨encoding', capacity', limit', chunk'⟩ := final
    simp [List.foldlM_nil, pure]
  | cons member members ih =>
    simp only [List.foldlM_cons, Option.bind_eq_bind, Option.bind_eq_some_iff,
      List.forall_mem_cons]
    constructor
    · rintro ⟨next, hmember, hlater⟩
      obtain ⟨hname, hencoding, hcapacity, hlimit, hchunk⟩ := addMember_eq_some_iff.mp hmember
      obtain ⟨hnames, hencoding', hcapacity', hlimit', hchunk'⟩ := ih.mp hlater
      exact ⟨⟨hname, hnames⟩, ⟨_, hencoding, hencoding'⟩, ⟨_, hcapacity, hcapacity'⟩,
        ⟨_, hlimit, hlimit'⟩, ⟨_, hchunk, hchunk'⟩⟩
    · rintro ⟨⟨hname, hnames⟩, ⟨encoding, hencoding, hencoding'⟩, ⟨capacity, hcapacity, hcapacity'⟩,
        ⟨limit, hlimit, hlimit'⟩, ⟨chunk, hchunk, hchunk'⟩⟩
      exact ⟨⟨encoding, capacity, limit, chunk⟩,
        addMember_eq_some_iff.mpr ⟨hname, hencoding, hcapacity, hlimit, hchunk⟩,
        ih.mpr ⟨hnames, hencoding', hcapacity', hlimit', hchunk'⟩⟩

end Reading

section Meaning

variable {members : List (Option String × Json)} {text : String}

/-- A size is given as its decimal digits. -/
def SizeMeans (given : Json) (size : Nat) : Prop :=
  size ≤ maxSize ∧ given = .number (toString size).toList

/-- An encoding is given as its key, or as an object of that name and no value. -/
def EncodingMeans (given : Json) (encoding : TextEncoding) : Prop :=
  given = .string (some encoding.key) ∨ given = .object [(some encoding.key, .null)]

/-- The defaults with the settings over them that the members give. -/
structure Overrides (members : List (Option String × Json)) (config : DecoderConfig) : Prop where
  encoding : Setting "encoding" members EncodingMeans .utf8 config.encoding
  initialScratchCapacity : Setting "initial_scratch_capacity" members SizeMeans
    defaultScratchCapacity config.initialScratchCapacity
  maxReadSize : Setting "max_read_size" members SizeMeans defaultMaxReadSize config.maxReadSize
  readerChunkSize : Setting "reader_chunk_size" members SizeMeans defaultReaderChunkSize
    config.readerChunkSize

theorem ofKey?_eq_some_iff {key : String} {encoding : TextEncoding} :
    TextEncoding.ofKey? key = some encoding ↔ key = encoding.key := by
  constructor
  · intro h
    rw [TextEncoding.ofKey?] at h
    split at h
    · next hkey => exact Option.some.inj h ▸ hkey
    split at h
    · next hkey => exact Option.some.inj h ▸ hkey
    · cases h
  · rintro rfl
    exact TextEncoding.ofKey?_key encoding

theorem encoding?_eq_some_iff {given : Json} {encoding : TextEncoding} :
    encoding? given = some encoding ↔ EncodingMeans given encoding := by
  rw [EncodingMeans]
  fun_cases encoding? given with
  | case1 key => simp [ofKey?_eq_some_iff]
  | case2 key => simp [ofKey?_eq_some_iff]
  | case3 given htext hmember =>
    refine ⟨nofun, ?_⟩
    rintro (rfl | rfl)
    · exact (htext _ rfl).elim
    · exact (hmember _ rfl).elim

theorem size?_eq_some_iff {given : Json} {size : Nat}
    (h : ∀ literal, given = .number literal → Json.NumberLiteral literal) :
    size? given = some size ↔ SizeMeans given size := by
  rw [SizeMeans]
  fun_cases size? given with
  | case1 literal =>
    rw [Option.filter_eq_some_iff, (h literal rfl).natural?_eq_some_iff, Json.number.injEq,
      decide_eq_true_iff, and_comm]
  | case2 given hnumber =>
    refine ⟨nofun, ?_⟩
    rintro ⟨_, rfl⟩
    exact (hnumber _ rfl).elim

/-- Reading one setting by the way it goes. -/
theorem setting_iff {α : Type} {name : String} {parse : Json → Option α}
    {Means : Json → α → Prop} {fallback value : α}
    (h : ∀ given ∈ valuesOf name members, ∀ value, parse given = some value ↔ Means given value) :
    Setting name members Means fallback value ↔ ∃ final,
      members.foldlM (setField name parse) none = some final ∧ final.getD fallback = value := by
  simp only [foldlM_setField_none]
  constructor
  · rintro (⟨hnone, rfl⟩ | ⟨given, hgiven, hmeans⟩)
    · exact ⟨none, .inl ⟨hnone, rfl⟩, rfl⟩
    · have hparse := (h given (by rw [hgiven]; exact List.mem_cons_self) value).mpr hmeans
      exact ⟨some value, .inr ⟨given, value, hgiven, hparse, rfl⟩, rfl⟩
  · rintro ⟨final, ⟨hnone, rfl⟩ | ⟨given, read, hgiven, hparse, rfl⟩, rfl⟩
    · exact .inl ⟨hnone, rfl⟩
    · exact .inr ⟨given, hgiven, (h given (by rw [hgiven]; exact List.mem_cons_self) _).mp hparse⟩

/-- What a text of an object is read as. -/
theorem ofJsonText?_eq_some_iff (h : Spells (.object members) text) {config : DecoderConfig} :
    ofJsonText? text = some config ↔
      (∀ member ∈ members, member.1 ≠ none) ∧ Overrides members config := by
  have hencoding {value} : Setting "encoding" members EncodingMeans .utf8 value ↔ _ :=
    setting_iff fun given _ _ => encoding?_eq_some_iff
  have hsize {name fallback value} : Setting name members SizeMeans fallback value ↔ _ :=
    setting_iff fun given hgiven _ => size?_eq_some_iff fun literal hliteral =>
      h.member_literal (hliteral ▸ mem_valuesOf.mp hgiven)
  rw [ofJsonText?, h.parse?, Option.bind_some, DecoderConfig.ofJson?, Option.map_eq_some_iff]
  simp only [ofMembers?, foldlM_addMember_eq_some_iff]
  constructor
  · rintro ⟨given, ⟨hnames, hkey, hcapacity, hlimit, hchunk⟩, rfl⟩
    exact ⟨hnames, hencoding.mpr ⟨_, hkey, rfl⟩, hsize.mpr ⟨_, hcapacity, rfl⟩,
      hsize.mpr ⟨_, hlimit, rfl⟩, hsize.mpr ⟨_, hchunk, rfl⟩⟩
  · rintro ⟨hnames, hover⟩
    obtain ⟨encoding, capacity, limit, chunk⟩ := config
    obtain ⟨encoding', hkey, rfl⟩ := hencoding.mp hover.encoding
    obtain ⟨capacity', hcapacity, rfl⟩ := hsize.mp hover.initialScratchCapacity
    obtain ⟨limit', hlimit, rfl⟩ := hsize.mp hover.maxReadSize
    obtain ⟨chunk', hchunk, rfl⟩ := hsize.mp hover.readerChunkSize
    exact ⟨⟨encoding', capacity', limit', chunk'⟩, ⟨hnames, hkey, hcapacity, hlimit, hchunk⟩, rfl⟩

section Rejection

variable {config : DecoderConfig} {name : String}

theorem Setting.once {α : Type} {Means : Json → α → Prop} {fallback value : α}
    (h : Setting name members Means fallback value) : (valuesOf name members).length ≤ 1 := by
  rcases h with ⟨hnone, _⟩ | ⟨given, hgiven, _⟩
  · rw [hnone]
    exact Nat.zero_le 1
  · rw [hgiven]
    exact Nat.le_refl 1

theorem Setting.means {α : Type} {Means : Json → α → Prop} {fallback value : α}
    (h : Setting name members Means fallback value) {given : Json}
    (hgiven : given ∈ valuesOf name members) : ∃ value, Means given value := by
  rcases h with ⟨hnone, _⟩ | ⟨only, honly, hmeans⟩
  · rw [hnone] at hgiven
    cases hgiven
  · rw [honly] at hgiven
    exact ⟨value, List.mem_singleton.mp hgiven ▸ hmeans⟩

/-- All settings but the encoding are sizes. -/
theorem Overrides.size (h : Overrides members config) (hname : name ∈ Given.names.tail) :
    ∃ fallback value, Setting name members SizeMeans fallback value := by
  simp only [DecoderConfig.Given.names, List.tail_cons, List.mem_cons, List.not_mem_nil,
    or_false] at hname
  rcases hname with rfl | rfl | rfl
  · exact ⟨_, _, h.initialScratchCapacity⟩
  · exact ⟨_, _, h.maxReadSize⟩
  · exact ⟨_, _, h.readerChunkSize⟩

theorem Overrides.once (h : Overrides members config) (hname : name ∈ Given.names) :
    (valuesOf name members).length ≤ 1 := by
  rcases List.mem_cons.mp hname with rfl | hsize
  · exact h.encoding.once
  · obtain ⟨_, _, hsetting⟩ := h.size hsize
    exact hsetting.once

/-- Members that no configuration goes with are not read as one. -/
theorem ofJsonText?_eq_none (h : Spells (.object members) text)
    (hnone : ∀ config, ¬ Overrides members config) : ofJsonText? text = none :=
  Option.eq_none_iff_forall_ne_some.mpr fun config hconfig =>
    hnone config ((ofJsonText?_eq_some_iff h).mp hconfig).2

end Rejection

/-- How a text of an object is read: as the defaults with the given settings over them, but not if
one is given again or as something else. -/
structure ReadsObject (members : List (Option String × Json)) (text : String) : Prop where
  reads : ∀ config, ofJsonText? text = some config ↔
    (∀ member ∈ members, member.1 ≠ none) ∧ Overrides members config
  repeated : ∀ name ∈ Given.names, 1 < (valuesOf name members).length → ofJsonText? text = none
  size : ∀ name ∈ Given.names.tail, ∀ given ∈ valuesOf name members,
    (∀ size, ¬ SizeMeans given size) → ofJsonText? text = none
  encoding : ∀ key, .string (some key) ∈ valuesOf "encoding" members →
    key ∉ ["utf8", "latin1"] → ofJsonText? text = none

theorem readsObject (h : Spells (.object members) text) : ReadsObject members text where
  reads _ := ofJsonText?_eq_some_iff h
  repeated := by
    intro name hname htwo
    refine ofJsonText?_eq_none h fun config hover => ?_
    exact absurd (hover.once hname) (Nat.not_le.mpr htwo)
  size := by
    intro name hname given hgiven hsize
    refine ofJsonText?_eq_none h fun config hover => ?_
    obtain ⟨_, _, hsetting⟩ := hover.size hname
    obtain ⟨size, hmeans⟩ := hsetting.means hgiven
    exact hsize size hmeans
  encoding := by
    intro key hkey hunknown
    refine ofJsonText?_eq_none h fun config hover => ?_
    obtain ⟨encoding, hstring | hobject⟩ := hover.encoding.means hkey
    · cases hstring
      cases encoding
      all_goals exact hunknown (by decide)
    · cases hobject

/-- Nothing but blanks may stand behind the settings. -/
theorem ofJsonText?_trailing {value : Json} {cs after : List Char} (h : Spelled (.text value) cs)
    (hafter : ¬ Blanks after) : ofJsonText? (String.ofList (cs ++ after)) = none := by
  refine Option.eq_none_iff_forall_ne_some.mpr fun config hconfig => ?_
  obtain ⟨read, hread, hconfig⟩ := Option.bind_eq_some_iff.mp hconfig
  have hscalar := Json.not_isContainer_of_trailing h hafter hread
  cases read with
  | array | object => cases hscalar
  | null | boolean | number | string => cases hconfig

end Meaning

section Writing

variable {config : DecoderConfig}

/-- The members that are written, in their order. -/
def storedMembers (config : DecoderConfig) : List (Option String × Json) :=
  [(some "encoding", .string (some config.encoding.key)),
    (some "initial_scratch_capacity", .number (toString config.initialScratchCapacity).toList),
    (some "max_read_size", .number (toString config.maxReadSize).toList),
    (some "reader_chunk_size", .number (toString config.readerChunkSize).toList)]

theorem plain_key (encoding : TextEncoding) :
    ∀ c ∈ encoding.key.toList, 32 ≤ c.toNat ∧ c ≠ '"' ∧ c ≠ '\\' := by
  cases encoding
  all_goals simp [TextEncoding.key]

/-- The characters that are written, member by member. -/
theorem toList_toJsonText (config : DecoderConfig) : config.toJsonText.toList = '\x7b' ::
    ('"' :: ("encoding".toList ++ '"' :: ':' :: '"' :: (config.encoding.key.toList ++ ['"'])) ++
      ',' :: ('"' :: ("initial_scratch_capacity".toList ++ '"' :: ':' ::
        (toString config.initialScratchCapacity).toList) ++
      ',' :: ('"' :: ("max_read_size".toList ++ '"' :: ':' ::
        (toString config.maxReadSize).toList) ++
      ',' :: '"' :: ("reader_chunk_size".toList ++ '"' :: ':' ::
        (toString config.readerChunkSize).toList))) ++ ['\x7d']) := by
  unfold DecoderConfig.toJsonText
  simp

/-- What is written spells the settings. -/
theorem spells_toJsonText (config : DecoderConfig) :
    Spells (.object (storedMembers config)) config.toJsonText := by
  have hencoding := spelled_plain "encoding" (by simp)
    (.string (Json.stringSpelled_plain (plain_key config.encoding)))
  have hcapacity := spelled_plain "initial_scratch_capacity" (by simp)
    (.number (Json.numberLiteral_toString config.initialScratchCapacity))
  have hlimit := spelled_plain "max_read_size" (by simp)
    (.number (Json.numberLiteral_toString config.maxReadSize))
  have hchunk := spelled_plain "reader_chunk_size" (by simp)
    (.number (Json.numberLiteral_toString config.readerChunkSize))
  have hmembers := Spelled.members hencoding (.members hcapacity (.members hlimit (.member hchunk)))
  have hobject := Spelled.object hmembers
  have htext := spelled_bare hobject
  rw [Spells, toList_toJsonText]
  exact htext

theorem storedMembers_named : ∀ member ∈ storedMembers config, member.1 ≠ none := by
  simp [storedMembers]

theorem overrides_storedMembers (hcapacity : config.initialScratchCapacity ≤ maxSize)
    (hlimit : config.maxReadSize ≤ maxSize) (hchunk : config.readerChunkSize ≤ maxSize) :
    Overrides (storedMembers config) config where
  encoding := .inr ⟨_, by simp [storedMembers, valuesOf], .inl rfl⟩
  initialScratchCapacity := .inr ⟨_, by simp [storedMembers, valuesOf], hcapacity, rfl⟩
  maxReadSize := .inr ⟨_, by simp [storedMembers, valuesOf], hlimit, rfl⟩
  readerChunkSize := .inr ⟨_, by simp [storedMembers, valuesOf], hchunk, rfl⟩

end Writing

/-- Stored settings. What is written is read back, whether it passes the check or not. An object
gives the defaults with its settings over them. Nothing else may follow. -/
theorem stored_settings_read_back :
    (∀ config : DecoderConfig, config.initialScratchCapacity ≤ maxSize →
      config.maxReadSize ≤ maxSize → config.readerChunkSize ≤ maxSize →
      ofJsonText? config.toJsonText = some config ∧
        (ofJsonText? config.toJsonText).map (·.validate) = some config.validate) ∧
    (∀ members text, Spells (.object members) text → ReadsObject members text) ∧
    (∀ value cs after, Spelled (.text value) cs → ¬ Blanks after →
      ofJsonText? (String.ofList (cs ++ after)) = none) := by
  refine ⟨fun config hcapacity hlimit hchunk => ?_, fun members text => readsObject,
    fun value cs after => ofJsonText?_trailing⟩
  have hread : ofJsonText? config.toJsonText = some config :=
    (ofJsonText?_eq_some_iff (spells_toJsonText config)).mpr
      ⟨storedMembers_named, overrides_storedMembers hcapacity hlimit hchunk⟩
  exact ⟨hread, by rw [hread]; rfl⟩

/-- A name spelled with an escape, blanks, a member of another name, a setting given twice, and a
text that goes on. -/
theorem stored_settings_read_back_respelled :
    ofJsonText? (⟨.latin1, 0, maxSize, 7⟩ : DecoderConfig).toJsonText =
      some ⟨.latin1, 0, maxSize, 7⟩ ∧
    ofJsonText? "\x7b \"\\u006dax_read_size\"\t:5,\"rows\":[null]\x7d\n" =
      some { maxReadSize := 5 } ∧
    ofJsonText? "\x7b\"max_read_size\":5,\"max_read_size\":5\x7d" = none ∧
    ofJsonText? (String.ofList ("\x7b\x7d".toList ++ "5".toList)) = none := by
  obtain ⟨hwritten, hobject, htrailing⟩ := stored_settings_read_back
  have hfive : Spelled (.value (.number ['5'])) ['5'] := .number (Json.numberLiteral_toString 5)
  refine ⟨(hwritten _ (by decide) (by decide) (by decide)).1, ?_, ?_, ?_⟩
  · have hzero : Json.HexDigit 0 '0' := .inl rfl
    have hsix : Json.HexDigit 6 '6' := .inl rfl
    have hlast : Json.HexDigit 13 'd' := .inl rfl
    have hpieces := Json.PiecesSpelled.more (.unit hzero hzero hsix hlast)
      (Json.piecesSpelled_plain (by simp : ∀ c ∈ "ax_read_size".toList, _))
    have hname : Json.StringSpelled (some "max_read_size") _ := hpieces.string
    have hlimit := Spelled.named (by decide : Blanks [' ']) hname (by decide : Blanks ['\t'])
      (spelled_bare hfive)
    have hrows := spelled_plain "rows" (by simp) (.array (.element (spelled_bare .null)))
    have htext := Spelled.text blanks_nil (.object (.members hlimit (.member hrows)))
      (by decide : Blanks ['\n'])
    have hspells : Spells _ "\x7b \"\\u006dax_read_size\"\t:5,\"rows\":[null]\x7d\n" := htext
    refine ((hobject _ _ hspells).reads _).mpr ⟨by simp, ?_⟩
    exact ⟨.inl ⟨rfl, rfl⟩, .inl ⟨rfl, rfl⟩, .inr ⟨_, rfl, by decide, rfl⟩, .inl ⟨rfl, rfl⟩⟩
  · have hlimit := spelled_plain "max_read_size" (by simp) hfive
    have htext := spelled_bare (.object (.members hlimit (.member hlimit)))
    have hspells : Spells _ "\x7b\"max_read_size\":5,\"max_read_size\":5\x7d" := htext
    exact (hobject _ _ hspells).repeated "max_read_size" (by decide) (by decide)
  · exact htrailing _ _ _ (spelled_bare (.emptyObject blanks_nil)) (by decide)

end Columnar
