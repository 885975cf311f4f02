/-
  TilePaint/Proofs/ConfigSaving.lean
  ==================================
  **A configuration is read back from its file.**

  What is saved is a comment and one line for each key (`written_toChars`).  Digits are
  neither blanks nor quotes, and they stand for the number they were made of
  (`wordOfText_digitsOf`), so each of the two lines is read as the assignment it was
  written for (`ofLine_lineOf`).

  Only the unit of the budget loses something: the file has whole mebibytes.  So what is
  loaded is the configuration with its budget `rounded`, if that one is usable
  (`file_round_trip`).
-/
import TilePaint.Proofs.ConfigLines

namespace TilePaint

/-! ## 1. Digits -/

theorem isDigit_of_mem_digitsOf {n : Nat} {c : Char} (h : c ∈ Config.digitsOf n) :
    c.isDigit = true :=
  Nat.isDigit_of_mem_toDigits (by decide) (by decide) h

theorem ne_of_isDigit {c mark : Char} (h : c.isDigit = true) (hmark : mark.isDigit = false) :
    c ≠ mark := by
  rintro rfl
  exact Bool.false_ne_true (hmark.symm.trans h)

theorem isBlank_of_isDigit {c : Char} (h : c.isDigit = true) : isBlank c = false := by
  have hbounds : 48 ≤ c.toNat ∧ c.toNat ≤ 57 := Char.isDigit_iff_toNat.mp h
  simp only [isBlank, Bool.or_eq_false_iff, Bool.and_eq_false_iff, decide_eq_false_iff_not,
    beq_eq_false_iff_ne, ne_eq]
  omega

theorem trimBlanks_digitsOf (n : Nat) : trimBlanks (Config.digitsOf n) = Config.digitsOf n :=
  (stripped_of_forall fun _ hc => isBlank_of_isDigit (isDigit_of_mem_digitsOf hc)).trimBy_eq

theorem trimQuotes_digitsOf (n : Nat) : trimQuotes (Config.digitsOf n) = Config.digitsOf n := by
  refine (stripped_of_forall fun c hc => ?_).trimBy_eq
  exact beq_eq_false_iff_ne.mpr (ne_of_isDigit (isDigit_of_mem_digitsOf hc) (by decide))

/-- **Decimal digits are read as the number they were made of.** -/
theorem wordOfText_digitsOf {limit n : Nat} (h : n ≤ limit) :
    wordOfText limit (Config.digitsOf n) = some n := by
  have hall : (Config.digitsOf n).all Char.isDigit = true :=
    List.all_eq_true.mpr fun _ hc => isDigit_of_mem_digitsOf hc
  have hvalue : (Config.digitsOf n).foldl (fun n c => 10 * n + digitValue c) 0 = n :=
    Nat.ofDigitChars_ten_toDigits
  cases hdigits : Config.digitsOf n with
  | nil => exact absurd hdigits Nat.toDigits_ne_nil
  | cons c rest =>
    -- there is no sign to be dropped
    have hsign : c ≠ '+' := by
      have hc : c ∈ Config.digitsOf n := hdigits ▸ List.mem_cons_self
      exact ne_of_isDigit (isDigit_of_mem_digitsOf hc) (by decide)
    rw [hdigits] at hall hvalue
    unfold wordOfText
    split
    · next heq => exact absurd (List.cons.inj heq).1 hsign
    · dsimp only
      rw [hall, hvalue]
      exact if_pos h

/-! ## 2. Lines -/

/-- The line that is written for a key. -/
def lineOf (key : ConfigKey) (n : Nat) : List Char :=
  key.name.toList ++ " = ".toList ++ Config.digitsOf n

theorem newline_not_mem_lineOf (key : ConfigKey) (n : Nat) : '\n' ∉ lineOf key n := by
  have hname : '\n' ∉ key.name.toList ++ " = ".toList := by cases key <;> decide
  refine List.not_mem_append hname fun h => ?_
  exact ne_of_isDigit (isDigit_of_mem_digitsOf h) (by decide) rfl

theorem ofLine_lineOf (key : ConfigKey) (n : Nat) :
    Assignment.ofLine (lineOf key n) = some ⟨key, Config.digitsOf n⟩ := by
  have hsplit : lineOf key n =
      (key.name.toList ++ [' ']) ++ '=' :: ([' '] ++ Config.digitsOf n) := by
    simp [lineOf]
  have hmark : '=' ∉ key.name.toList ++ [' '] := by cases key <;> decide
  have hname : ConfigKey.ofName (trimBlanks (key.name.toList ++ [' '])) = some key := by
    cases key <;> decide
  have hvalue : trimQuotes (trimBlanks ([' '] ++ Config.digitsOf n)) = Config.digitsOf n := by
    have hblank : Blank [' '] := blank_singleton (by decide)
    rw [trimBlanks, trimBy_pad_left hblank, ← trimBlanks, trimBlanks_digitsOf, trimQuotes_digitsOf]
  rw [hsplit, Assignment.ofLine_append_cons hmark, Assignment.ofParts, hname, hvalue]
  rfl

namespace Config

variable {c : Config}

def comment : List Char := "# doctile tile buffer configuration".toList

theorem written_toChars (c : Config) :
    Written [comment, lineOf .edge c.edge, lineOf .budget c.budgetMiB] c.toChars := by
  have hfirst : "# doctile tile buffer configuration\n".toList = comment ++ ['\n'] := by decide
  have hchars : c.toChars = comment ++ '\n' :: (lineOf .edge c.edge ++
      '\n' :: (lineOf .budget c.budgetMiB ++ '\n' :: [])) := by
    unfold toChars lineOf ConfigKey.name
    simp only [hfirst, List.append_assoc, List.cons_append, List.nil_append]
  have hcomment : '\n' ∉ comment := by decide
  rw [hchars]
  exact .ended hcomment (.ended (newline_not_mem_lineOf _ _)
    (.ended (newline_not_mem_lineOf _ _) .nil))

/-! ## 3. Files -/

/-- The bytes that are saved for a configuration. -/
def saved (c : Config) : ByteArray := c.toText.toUTF8

/-- The configuration with a budget of whole mebibytes. -/
def rounded (c : Config) : Config := c.withBudget (c.budgetMiB * mebibyte)

theorem rounded_of_dvd (h : mebibyte ∣ c.budget) : c.rounded = c := by
  rw [rounded, budgetMiB, Nat.div_mul_cancel h]
  rfl

theorem fromUTF8?_toUTF8 (text : String) : String.fromUTF8? text.toUTF8 = some text :=
  dif_pos text.isValidUTF8

theorem ofFile_saved (hedge : c.edge ≤ maxLength) (hbudget : c.budget ≤ maxIndex) :
    ofFile (some c.saved) = c.rounded.checked := by
  have hbytes : c.budgetMiB * mebibyte ≤ maxIndex :=
    Nat.le_trans (Nat.div_mul_le_self ..) hbudget
  have hcount : c.budgetMiB ≤ maxIndex := Nat.le_trans (Nat.div_le_self ..) hbudget
  have hedge' : (Assignment.mk .edge (digitsOf c.edge)).amount? = some c.edge :=
    wordOfText_digitsOf hedge
  have hbudget' : (Assignment.mk .budget (digitsOf c.budgetMiB)).amount? =
      some (c.budgetMiB * mebibyte) := by
    rw [Assignment.amount?, ConfigKey.amount?, wordOfText_digitsOf hcount, Option.map_some,
      Option.filter_some, if_pos (decide_eq_true hbytes)]
  have hlines : assignmentsOf [comment, lineOf .edge c.edge, lineOf .budget c.budgetMiB] =
      [⟨.edge, digitsOf c.edge⟩, ⟨.budget, digitsOf c.budgetMiB⟩] := by
    have hcomment : Assignment.ofLine comment = none := by decide
    rw [assignmentsOf_cons_none hcomment, assignmentsOf_cons_some (ofLine_lineOf _ _),
      assignmentsOf_cons_some (ofLine_lineOf _ _)]
    rfl
  have hwritten : Written [comment, lineOf .edge c.edge, lineOf .budget c.budgetMiB]
      c.toText.toList := by
    rw [toText, String.toList_ofList]
    exact written_toChars c
  have hvalid :
      firstInvalid? [⟨.edge, digitsOf c.edge⟩, ⟨.budget, digitsOf c.budgetMiB⟩] = none := by
    simp only [firstInvalid?, List.find?_cons, hedge', hbudget', Option.isNone_some, List.find?_nil]
  rw [ofFile, Option.bind_some, saved, fromUTF8?_toUTF8]
  dsimp only
  rw [ofText_eq_of_written hwritten, hlines, load_of_valid _ hvalid, overriddenBy_cons hedge',
    overriddenBy_cons hbudget']
  rfl

/-- **A saved configuration is loaded back**, with its budget rounded down to whole
    mebibytes, if that one passes validation; if not, loading ends with the same error, which
    names a key.  So a usable configuration with such a budget is loaded back unchanged. -/
theorem file_round_trip (hedge : c.edge ≤ maxLength) (hbudget : c.budget ≤ maxIndex)
    (htwo : c.tileBytes * 2 ≤ maxIndex) :
    ((c.rounded.validate = .ok () ∧ ofFile (some c.saved) = .ok c.rounded) ∨
        ∃ key, c.rounded.validate = .error (.invalidValue key) ∧
          ofFile (some c.saved) = .error (.invalidValue key)) ∧
      (c.validate = .ok () → mebibyte ∣ c.budget → ofFile (some c.saved) = .ok c) := by
  have hload := ofFile_saved hedge hbudget
  constructor
  · have hlarge : ¬largestEdge < c.rounded.edge := Nat.not_lt.mpr (two_tiles_le_iff.mp htwo)
    have hcases : c.rounded.validate = .ok () ∨
        ∃ key, c.rounded.validate = .error (.invalidValue key) := by
      rw [validate_eq, if_neg hlarge]
      split
      · exact Or.inr ⟨_, rfl⟩
      · split
        · exact Or.inr ⟨_, rfl⟩
        · exact Or.inl rfl
    rcases hcases with hok | ⟨key, herror⟩
    · exact Or.inl ⟨hok, hload.trans (checked_eq_ok_iff.mpr ⟨hok, rfl⟩)⟩
    · exact Or.inr ⟨key, herror, hload.trans (checked_eq_error_iff.mpr herror)⟩
  · intro hok hdvd
    rw [hload, rounded_of_dvd hdvd]
    exact checked_eq_ok_iff.mpr ⟨hok, rfl⟩

/-- The largest edge there is, with the largest budget of whole mebibytes. -/
def largest : Config where
  edge := largestEdge
  budget := 17592186044415 * mebibyte

theorem file_round_trip_largest :
    largest.budget + mebibyte = maxIndex + 1 ∧ largest.validate = .ok () ∧
      ofFile (some largest.saved) = .ok largest := by
  have hbudget : largest.budget + mebibyte = maxIndex + 1 := by decide
  have hok : largest.validate = .ok () := by decide
  have hdvd : mebibyte ∣ largest.budget := Nat.dvd_mul_left ..
  exact ⟨hbudget, hok, (file_round_trip (by decide) (by decide) (by decide)).2 hok hdvd⟩

end Config

end TilePaint
