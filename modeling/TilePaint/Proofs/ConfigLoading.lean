/-
  TilePaint/Proofs/ConfigLoading.lean
  ===================================
  **What can come of loading a configuration.**

  A file and the environment are read alike.  Both come down to a list of
  assignments (`assignmentsIn`, `environment`), applied to the defaults one after
  the other: one whose value is not a number in range ends the loading with an
  error that names its key, and of the others the last one to a key stays
  (`overriddenBy`).  What comes out of that is validated.

  A configuration that is loaded is `Usable`: its pool has a slot, and with one tile
  of headroom it stays in the budget.  Validation says which ones are, unless the
  product by which it finds out is too great for a word.  That is so for every edge
  above `largestEdge`, some of which are 32-bit numbers and therefore in range.
  With such an edge loading ends in a fault, and in no other case
  (`loading_outcome`, `loading_may_overflow`).
-/
import TilePaint.Config.Environment

namespace TilePaint

/-! ## 1. Assignments -/

/-- The number that a text sets a key to, if it is one in range: the edge in pixels,
    the budget in bytes. -/
def ConfigKey.amount? : ConfigKey → List Char → Option Nat
  | .edge, value => wordOfText maxLength value
  | .budget, value =>
      ((wordOfText maxIndex value).map (· * Config.mebibyte)).filter (· ≤ maxIndex)

def Assignment.amount? (a : Assignment) : Option Nat := a.key.amount? a.value

/-- The first assignment whose value is no number in range. -/
def firstInvalid? (as : List Assignment) : Option Assignment := as.find? (·.amount?.isNone)

/-- The numbers that a key is set to, in order. -/
def amounts (key : ConfigKey) (as : List Assignment) : List Nat :=
  as.filterMap fun a => if a.key = key then a.amount? else none

theorem amounts_cons {key : ConfigKey} {a : Assignment} {as : List Assignment} {n : Nat}
    (ha : a.amount? = some n) :
    amounts key (a :: as) = if a.key = key then n :: amounts key as else amounts key as := by
  simp only [amounts, List.filterMap_cons, ha]
  by_cases hkey : a.key = key
  · simp only [hkey, if_true]
  · simp only [hkey, if_false]

theorem wordOfText_le {limit n : Nat} {value : List Char} (h : wordOfText limit value = some n) :
    n ≤ limit := by
  simp only [wordOfText, Option.ite_none_left_eq_some, Option.ite_none_right_eq_some] at h
  obtain ⟨-, hle, hn⟩ := h
  exact Option.some.inj hn ▸ hle

theorem le_of_mem_amounts {key : ConfigKey} {as : List Assignment} {n : Nat}
    (h : n ∈ amounts key as) : n ≤ maxIndex := by
  simp only [amounts, List.mem_filterMap, Option.ite_none_right_eq_some] at h
  obtain ⟨a, -, -, ha⟩ := h
  simp only [Assignment.amount?, ConfigKey.amount?] at ha
  split at ha
  · exact Nat.le_trans (wordOfText_le ha) (by decide)
  · simp only [Option.filter_eq_some_iff, decide_eq_true_eq] at ha
    exact ha.2

namespace Config

variable {c d : Config} {as : List Assignment}

def put (c : Config) : ConfigKey → Nat → Config
  | .edge, n => c.withEdge n
  | .budget, n => c.withBudget n

theorem assign_eq (c : Config) (key : ConfigKey) (value : List Char) :
    c.assign key value = (key.amount? value).map (c.put key) := by
  cases key with
  | edge => rfl
  | budget =>
    simp only [assign, ConfigKey.amount?]
    cases wordOfText maxIndex value with
    | none => rfl
    | some count =>
      -- by rewriting, since a reduction would also evaluate the product of the test
      rw [Option.bind_eq_bind, Option.bind_some, Option.map_some, Option.filter_some]
      by_cases hfits : count * mebibyte ≤ maxIndex
      · rw [if_pos hfits, if_pos (decide_eq_true hfits), Option.map_some, put]
      · rw [if_neg hfits, if_neg (by rwa [decide_eq_true_eq]), Option.map_none]

/-- The configuration with each key set to the last number that it is assigned. -/
def overriddenBy (c : Config) (as : List Assignment) : Config where
  edge := (amounts .edge as).getLastD c.edge
  budget := (amounts .budget as).getLastD c.budget

theorem overriddenBy_cons {a : Assignment} {n : Nat} (ha : a.amount? = some n) :
    c.overriddenBy (a :: as) = (c.put a.key n).overriddenBy as := by
  cases hkey : a.key with
  | edge =>
    simp only [overriddenBy, amounts_cons ha, put, withEdge, hkey, reduceCtorEq, if_true, if_false,
      List.getLastD_cons]
  | budget =>
    simp only [overriddenBy, amounts_cons ha, put, withBudget, hkey, reduceCtorEq, if_true,
      if_false, List.getLastD_cons]

/-! ## 2. Files and environment -/

/-- Apply an assignment.  The error calls the key by its `name`. -/
def applyAs (name : ConfigKey → String) (c : Config) (a : Assignment) :
    Except ConfigError Config :=
  match a.amount? with
  | some n => .ok (c.put a.key n)
  | none => .error (.invalidValue (name a.key))

/-- Apply some assignments to the defaults and validate what comes out. -/
def load (name : ConfigKey → String) (as : List Assignment) : Except ConfigError Config := do
  let c ← as.foldlM (applyAs name) {}
  c.checked

def assignmentsIn (text : String) : List Assignment :=
  (splitLines text.toList).filterMap Assignment.ofLine

def setting (key : ConfigKey) (value : Option ByteArray) : List Assignment :=
  (value.bind String.fromUTF8?).toList.map fun text => ⟨key, text.toList⟩

def environment (edge budget : Option ByteArray) : List Assignment :=
  setting .edge edge ++ setting .budget budget

theorem apply_eq_applyAs : apply = applyAs ConfigKey.name := by
  funext c a
  simp only [apply, applyAs, assign_eq, Assignment.amount?]
  cases a.key.amount? a.value <;> rfl

theorem ofText_eq_load (text : String) :
    ofText text = load ConfigKey.name (assignmentsIn text) := by
  simp only [ofText, ofChars, load, assignmentsIn, apply_eq_applyAs]

theorem override_eq_foldlM (c : Config) (key : ConfigKey) (value : Option ByteArray) :
    c.override key value = (setting key value).foldlM (applyAs ConfigKey.variableName) c := by
  simp only [override, setting]
  cases value.bind String.fromUTF8? with
  | none => rfl
  | some text =>
    simp only [Option.toList_some, List.map_cons, List.map_nil, List.foldlM_cons, List.foldlM_nil,
      bind_pure, applyAs, assign_eq, Assignment.amount?]
    cases key.amount? text.toList <;> rfl

theorem ofEnvironment_eq_load (edge budget : Option ByteArray) :
    ofEnvironment edge budget = load ConfigKey.variableName (environment edge budget) := by
  simp only [ofEnvironment, load, environment, List.foldlM_append, override_eq_foldlM, bind_assoc]

/-- The first assignment out of range decides, and if there is none the last ones to
    the keys. -/
theorem foldlM_applyAs_eq (name : ConfigKey → String) (c : Config) (as : List Assignment) :
    as.foldlM (applyAs name) c =
      match firstInvalid? as with
      | some a => .error (.invalidValue (name a.key))
      | none => .ok (c.overriddenBy as) := by
  induction as generalizing c with
  | nil => rfl
  | cons a as ih =>
    simp only [List.foldlM_cons, applyAs, firstInvalid?, List.find?_cons]
    cases ha : a.amount? with
    | none => rfl
    | some n =>
      simp only [Option.isNone_some, overriddenBy_cons ha]
      exact ih (c.put a.key n)

/-! ## 3. Validation -/

def tileBytes (c : Config) : Nat := c.edge * c.edge * bytesPerPixel

/-- The largest edge for which the bytes of two tiles can be counted by a word. -/
def largestEdge : Nat := 1518500249

theorem two_tiles_le_iff : c.tileBytes * 2 ≤ maxIndex ↔ c.edge ≤ largestEdge := by
  have hmax : maxIndex = 18446744073709551615 := rfl
  simp only [tileBytes, bytesPerPixel, largestEdge, hmax]
  constructor
  · intro h
    refine Nat.le_of_not_lt fun hlarge => ?_
    have hsquare : 1518500250 * 1518500250 ≤ c.edge * c.edge := Nat.mul_le_mul hlarge hlarge
    omega
  · intro h
    have hsquare : c.edge * c.edge ≤ 1518500249 * 1518500249 := Nat.mul_le_mul h h
    omega

theorem tileBytes_pos (h : 0 < c.edge) : 0 < c.tileBytes :=
  Nat.mul_pos (Nat.mul_pos h h) (by decide)

theorem stride_eq : c.stride =
    if c.tileBytes ≤ maxIndex then .ok c.tileBytes else .error .mulOverflow := by
  unfold stride mulWithin
  by_cases hsquare : c.edge * c.edge ≤ maxIndex
  · simp only [hsquare, if_true]
    rfl
  · have hlarge : ¬c.tileBytes ≤ maxIndex := by
      simp only [tileBytes, bytesPerPixel]
      omega
    simp only [hsquare, hlarge, if_false]
    rfl

/-- A configuration that a pool can be made of: a tile has pixels, its bytes are
    counted by a word, and the slots of the pool together with one tile more stay in the
    budget. -/
structure Usable (c : Config) : Prop where
  edge : 0 < c.edge
  pool : ∃ stride slots, c.stride = .ok stride ∧ stride ≤ maxIndex ∧ c.slots = .ok slots ∧
    1 ≤ slots ∧ (slots + 1) * stride ≤ c.budget

theorem slots_eq (h : 0 < c.edge) (hle : c.tileBytes ≤ maxIndex) :
    c.slots = .ok (max 1 (c.budget / c.tileBytes - 1)) := by
  have hpos := tileBytes_pos h
  simp only [slots, stride_eq, hle, if_true]
  exact congrArg Except.ok (if_neg (by omega))

theorem usable_iff : c.Usable ↔
    0 < c.edge ∧ c.tileBytes ≤ maxIndex ∧ c.tileBytes * 2 ≤ c.budget := by
  constructor
  · rintro ⟨hedge, stride, slots, hstride, -, -, hslots, hbudget⟩
    rw [stride_eq] at hstride
    split at hstride
    · next hle =>
      cases hstride
      have htwo : 2 * c.tileBytes ≤ (slots + 1) * c.tileBytes := Nat.mul_le_mul_right _ (by omega)
      exact ⟨hedge, hle, by omega⟩
    · cases hstride
  · rintro ⟨hedge, hle, htwo⟩
    have hpos := tileBytes_pos hedge
    have hafford : 2 ≤ c.budget / c.tileBytes := (Nat.le_div_iff_mul_le hpos).mpr (by omega)
    refine ⟨hedge, c.tileBytes, _, stride_eq.trans (if_pos hle), hle, slots_eq hedge hle,
      Nat.le_max_left .., ?_⟩
    calc (max 1 (c.budget / c.tileBytes - 1) + 1) * c.tileBytes
        = c.budget / c.tileBytes * c.tileBytes := by congr 1; omega
      _ ≤ c.budget := Nat.div_mul_le_self ..

/-- The bytes of two tiles, which validation counts first. -/
theorem twoTiles_eq : (do mulWithin maxIndex (← c.stride) 2) =
    if c.edge ≤ largestEdge then .ok (c.tileBytes * 2) else .error .mulOverflow := by
  simp only [stride_eq, ← two_tiles_le_iff]
  by_cases hle : c.tileBytes ≤ maxIndex
  · simp only [hle, if_true]
    rfl
  · have htwo : ¬c.tileBytes * 2 ≤ maxIndex := by omega
    simp only [hle, htwo, if_false]
    rfl

theorem validate_eq : c.validate =
    if c.edge = 0 then .error (.invalidValue edgeKey)
    else if largestEdge < c.edge then .error (.fault .mulOverflow)
    else if c.budget < c.tileBytes * 2 then .error (.invalidValue budgetKey)
    else .ok () := by
  unfold validate
  rw [twoTiles_eq]
  by_cases hzero : c.edge = 0
  · simp only [hzero, if_true]
    rfl
  · by_cases hlarge : largestEdge < c.edge
    · simp only [hzero, hlarge, Nat.not_le.mpr hlarge, if_true, if_false]
      rfl
    · simp only [hzero, hlarge, Nat.not_lt.mp hlarge, if_true, if_false]
      by_cases hbudget : c.budget < c.tileBytes * 2
      · rw [if_pos hbudget]
        exact if_pos hbudget
      · rw [if_neg hbudget]
        exact if_neg hbudget

/-- **Validation accepts the usable configurations**, of all those whose budget is
    counted by a word. -/
theorem validate_eq_ok_iff (h : c.budget ≤ maxIndex) : c.validate = .ok () ↔ c.Usable := by
  have hcounts : c.tileBytes * 2 ≤ maxIndex ↔ c.edge ≤ largestEdge := two_tiles_le_iff
  rw [usable_iff, validate_eq]
  constructor
  · intro hok
    split at hok <;> grind
  · rintro ⟨hpos, -, htwo⟩
    have hedge := hcounts.mp (by omega)
    rw [if_neg (by omega), if_neg (by omega), if_neg (by omega)]

/-- It faults at an edge that is too large for it, and only there. -/
theorem validate_eq_fault_iff {cause : Fault} :
    c.validate = .error (.fault cause) ↔ cause = .mulOverflow ∧ largestEdge < c.edge := by
  rw [validate_eq]
  constructor
  · intro hfault
    split at hfault <;> grind
  · rintro ⟨rfl, hlarge⟩
    rw [if_neg (by omega), if_pos hlarge]

theorem validate_ne_unreadable : c.validate ≠ .error .unreadable := by
  rw [validate_eq]
  split <;> grind

theorem checked_eq_ok_iff : c.checked = .ok d ↔ c.validate = .ok () ∧ d = c := by
  unfold checked
  cases c.validate with
  | error e =>
    constructor
    · intro h
      cases h
    · rintro ⟨h, -⟩
      cases h
  | ok accepted =>
    constructor
    · intro h
      cases h
      exact ⟨rfl, rfl⟩
    · rintro ⟨-, rfl⟩
      rfl

theorem checked_eq_error_iff {e : ConfigError} :
    c.checked = .error e ↔ c.validate = .error e := by
  unfold checked
  cases c.validate with
  | error cause =>
    constructor
    · intro h
      cases h
      rfl
    · intro h
      cases h
      rfl
  | ok accepted => exact iff_of_false nofun nofun

/-! ## 4. Loading -/

theorem budget_overriddenBy_le (as : List Assignment) :
    (({} : Config).overriddenBy as).budget ≤ maxIndex := by
  simp only [overriddenBy, List.getLastD_eq_getLast?]
  cases hlast : (amounts .budget as).getLast? with
  | none => decide
  | some n => exact le_of_mem_amounts (List.mem_of_getLast? hlast)

/-- **What comes of some assignments.**  It is a configuration if every number is in
    range and the last ones make up one that is usable.  It is a fault if every number is
    in range and the edge too large to validate it.  All that remains is an invalid value. -/
structure Outcome (as : List Assignment) (outcome : Except ConfigError Config) : Prop where
  ok_iff : ∀ c, outcome = .ok c ↔
    firstInvalid? as = none ∧ c = ({} : Config).overriddenBy as ∧ c.Usable
  fault_iff : ∀ cause, outcome = .error (.fault cause) ↔
    cause = .mulOverflow ∧ firstInvalid? as = none ∧
      largestEdge < (({} : Config).overriddenBy as).edge
  readable : outcome ≠ .error .unreadable

theorem outcome_load (name : ConfigKey → String) (as : List Assignment) :
    Outcome as (load name as) := by
  unfold load
  rw [foldlM_applyAs_eq]
  -- a value that is not valid stops the reading before the check of the whole
  cases hinvalid : firstInvalid? as with
  | some a =>
    refine ⟨?_, ?_, nofun⟩
    · intro c
      exact iff_of_false nofun fun h => nomatch h.1.symm.trans hinvalid
    · intro cause
      exact iff_of_false nofun fun h => nomatch h.2.1.symm.trans hinvalid
  | none =>
    refine ⟨?_, ?_, ?_⟩
    · intro c
      refine checked_eq_ok_iff.trans ?_
      rw [validate_eq_ok_iff (budget_overriddenBy_le as)]
      constructor
      · rintro ⟨husable, rfl⟩
        exact ⟨hinvalid, rfl, husable⟩
      · rintro ⟨-, rfl, husable⟩
        exact ⟨husable, rfl⟩
    · intro cause
      refine (checked_eq_error_iff.trans validate_eq_fault_iff).trans ?_
      simp only [hinvalid, true_and]
    · intro h
      exact validate_ne_unreadable (checked_eq_error_iff.mp h)

/-- **Loading ends in every case**, for the bytes of a file, or none, and for any values
    of the two variables.  A file that is not there or is no text cannot be read; otherwise
    its assignments decide, as do those of the environment.  Every configuration that is
    loaded is usable, and the one way not to get an answer is an edge above `largestEdge`. -/
theorem loading_outcome (contents edge budget : Option ByteArray) :
    ((contents.bind String.fromUTF8? = none ∧ ofFile contents = .error .unreadable) ∨
      ∃ text, contents.bind String.fromUTF8? = some text ∧
        Outcome (assignmentsIn text) (ofFile contents)) ∧
      Outcome (environment edge budget) (ofEnvironment edge budget) := by
  constructor
  · unfold ofFile
    cases htext : contents.bind String.fromUTF8? with
    | none => exact Or.inl ⟨rfl, rfl⟩
    | some text =>
      refine Or.inr ⟨text, rfl, ?_⟩
      simp only [ofText_eq_load]
      exact outcome_load _ _
  · rw [ofEnvironment_eq_load]
    exact outcome_load _ _

/-- An edge of 2 ^ 31 pixels is in range, but four bytes for each pixel of such a tile
    make 2 ^ 64 bytes. -/
theorem loading_may_overflow :
    ofFile (some "tile_size_px = 2147483648".toUTF8) = .error (.fault .mulOverflow) ∧
      ofEnvironment (some "2147483648".toUTF8) none = .error (.fault .mulOverflow) := by
  have hload : ∀ name : ConfigKey → String,
      load name [⟨.edge, "2147483648".toList⟩] = .error (.fault .mulOverflow) := by
    intro name
    exact ((outcome_load name _).fault_iff _).mpr ⟨rfl, by decide, by decide⟩
  have htext : String.fromUTF8? "tile_size_px = 2147483648".toUTF8 =
      some "tile_size_px = 2147483648" := by decide +kernel
  have hline : assignmentsIn "tile_size_px = 2147483648" = [⟨.edge, "2147483648".toList⟩] := by
    decide +kernel
  have hvariables : environment (some "2147483648".toUTF8) none =
      [⟨.edge, "2147483648".toList⟩] := by decide +kernel
  constructor
  · simp only [ofFile, Option.bind_some, htext, ofText_eq_load, hline, hload]
  · rw [ofEnvironment_eq_load, hvariables, hload]

end Config

end TilePaint
