/-
  TilePaint/Proofs/ConfigLines.lean
  =================================
  **What of a configuration text counts.**

  A line is read by trimming it, testing it, cutting it at its first `=` and trimming
  both parts.  Two of these steps do nothing: `ofLine_eq_cut` reads a line by the cut
  alone.  So a line says nothing (`Silent`) or makes an assignment (`Assigns`), and all
  spellings that differ in blanks and in the quotes around the value (`Respells`) are read
  alike.

  A text is made of lines, each with an end of its own (`Written`).  The result depends
  on the assignments of these lines only: the first one out of range decides, and if
  there is none the last ones to each key (`reading_assignments`).
-/
import Mathlib.Data.List.DropRight
import TilePaint.Proofs.ConfigLoading

namespace TilePaint

/-! ## 1. Trimming -/

section Trim

variable {drop : Char → Bool} {cs pad : List Char} {mark : Char}

/-- Neither end of a text would be trimmed. -/
structure Stripped (drop : Char → Bool) (cs : List Char) : Prop where
  head : ∀ c, cs.head? = some c → drop c = false
  last : ∀ c, cs.getLast? = some c → drop c = false

theorem dropWhile_append_cons (h : drop mark = false) (xs ys : List Char) :
    (xs ++ mark :: ys).dropWhile drop = xs.dropWhile drop ++ mark :: ys := by
  induction xs with
  | nil => rw [List.nil_append, List.dropWhile_cons, h, List.dropWhile_nil]; rfl
  | cons x xs ih =>
    rw [List.cons_append, List.dropWhile_cons, List.dropWhile_cons]
    split
    · exact ih
    · rfl

theorem trimBy_pad_left (h : ∀ c ∈ pad, drop c = true) :
    trimBy drop (pad ++ cs) = trimBy drop cs := by
  rw [trimBy, trimBy, List.dropWhile_append_of_pos h]

theorem trimBy_pad_right (h : ∀ c ∈ pad, drop c = true) :
    trimBy drop (cs ++ pad) = trimBy drop cs := by
  have hreverse : ∀ c ∈ pad.reverse, drop c = true := fun c hc => h c (List.mem_reverse.mp hc)
  rw [trimBy, trimBy, List.dropWhile_append]
  split
  · next hnone => rw [List.dropWhile_eq_nil_iff.mpr h, List.isEmpty_iff.mp hnone]
  · rw [List.reverse_append, List.dropWhile_append_of_pos hreverse]

theorem mem_of_mem_trimBy {c : Char} (h : c ∈ trimBy drop cs) : c ∈ cs := by
  have hleft := (List.dropWhile_suffix _).subset (List.mem_reverse.mp h)
  exact (List.dropWhile_suffix _).subset (List.mem_reverse.mp hleft)

theorem trimBy_dropWhile : trimBy drop (cs.dropWhile drop) = trimBy drop cs := by
  rw [trimBy, trimBy, List.dropWhile_idempotent]

/-- A text with a character that stays is trimmed on both sides of it. -/
theorem trimBy_append_cons (h : drop mark = false) (xs ys : List Char) :
    trimBy drop (xs ++ mark :: ys) =
      xs.dropWhile drop ++ mark :: (ys.reverse.dropWhile drop).reverse := by
  rw [trimBy, dropWhile_append_cons h, List.reverse_append, List.reverse_cons, List.append_assoc,
    List.singleton_append, dropWhile_append_cons h, List.reverse_append, List.reverse_cons,
    List.reverse_reverse, List.append_assoc, List.singleton_append]

theorem trimBy_reverse_dropWhile :
    trimBy drop (cs.reverse.dropWhile drop).reverse = trimBy drop cs := by
  have hpad : ∀ c ∈ (cs.reverse.takeWhile drop).reverse, drop c = true := by
    intro c hc
    exact List.mem_takeWhile_imp (List.mem_reverse.mp hc)
  rw [← trimBy_pad_right hpad, ← List.reverse_append, List.takeWhile_append_dropWhile,
    List.reverse_reverse]

theorem Stripped.append {xs ys : List Char} (hxs : Stripped drop xs) (hys : Stripped drop ys) :
    Stripped drop (xs ++ ys) := by
  constructor
  · intro c hc
    rw [List.head?_append] at hc
    rcases Option.or_eq_some_iff.mp hc with hc | ⟨-, hc⟩
    · exact hxs.head c hc
    · exact hys.head c hc
  · intro c hc
    rw [List.getLast?_append] at hc
    rcases Option.or_eq_some_iff.mp hc with hc | ⟨-, hc⟩
    · exact hys.last c hc
    · exact hxs.last c hc

theorem stripped_of_forall (h : ∀ c ∈ cs, drop c = false) : Stripped drop cs :=
  ⟨fun c hc => h c (List.mem_of_head? hc), fun c hc => h c (List.mem_of_getLast? hc)⟩

theorem dropWhile_eq_self (h : ∀ c, cs.head? = some c → drop c = false) :
    cs.dropWhile drop = cs := by
  cases cs with
  | nil => rfl
  | cons c cs => rw [List.dropWhile_cons, h c rfl]; rfl

theorem Stripped.trimBy_eq (h : Stripped drop cs) : trimBy drop cs = cs := by
  rw [trimBy, dropWhile_eq_self h.head, dropWhile_eq_self, List.reverse_reverse]
  intro c hc
  rw [List.head?_reverse] at hc
  exact h.last c hc

theorem head_dropWhile {c : Char} (h : (cs.dropWhile drop).head? = some c) : drop c = false := by
  have := List.head?_dropWhile_not drop cs
  rw [h] at this
  exact this

theorem stripped_trimBy (drop : Char → Bool) (cs : List Char) :
    Stripped drop (trimBy drop cs) := by
  constructor
  · intro c hc
    -- what is left of the end starts as before, unless nothing is left
    have hprefix : trimBy drop cs <+: cs.dropWhile drop :=
      List.reverse_suffix.mp (by rw [trimBy, List.reverse_reverse]; exact List.dropWhile_suffix _)
    obtain ⟨rest, hrest⟩ := hprefix
    have hleft : (cs.dropWhile drop).head? = some c := by
      rw [← hrest, List.head?_append, hc]
      rfl
    exact head_dropWhile hleft
  · intro c hc
    rw [trimBy, List.getLast?_reverse] at hc
    exact head_dropWhile hc

end Trim

/-! ## 2. A line -/

section Cut

variable {mark : Char} {name raw line : List Char}

theorem cutAt_append_cons (h : mark ∉ name) :
    cutAt mark (name ++ mark :: raw) = some (name, raw) := by
  have hname : ∀ c ∈ name, decide (c ≠ mark) = true := by
    intro c hc
    exact decide_eq_true fun hmark => h (hmark ▸ hc)
  have hstop : decide (mark ≠ mark) = false := decide_eq_false fun h => h rfl
  simp only [cutAt, List.dropWhile_append_of_pos hname, List.takeWhile_append_of_pos hname,
    List.dropWhile_cons, List.takeWhile_cons, hstop, Bool.false_eq_true, if_false, List.append_nil]

theorem cutAt_of_not_mem (h : mark ∉ line) : cutAt mark line = none := by
  have hline : ∀ c ∈ line, decide (c ≠ mark) = true := by
    intro c hc
    exact decide_eq_true fun hmark => h (hmark ▸ hc)
  rw [cutAt, List.dropWhile_eq_nil_iff.mpr hline]

end Cut

theorem ConfigKey.ofName_eq_some_iff {name : List Char} {key : ConfigKey} :
    ConfigKey.ofName name = some key ↔ name = key.name.toList := by
  have hdiffer : Config.edgeKey.toList ≠ Config.budgetKey.toList := by decide
  unfold ConfigKey.ofName
  cases key with
  | edge =>
    by_cases hedge : name = Config.edgeKey.toList
    · exact iff_of_true (if_pos hedge) hedge
    · rw [if_neg hedge]
      refine iff_of_false (fun h => ?_) hedge
      split at h <;> cases h
  | budget =>
    by_cases hbudget : name = Config.budgetKey.toList
    · refine iff_of_true ?_ hbudget
      rw [hbudget, if_neg hdiffer.symm, if_pos rfl]
    · rw [if_neg hbudget]
      refine iff_of_false (fun h => ?_) hbudget
      split at h <;> cases h

/-- No key starts with the mark of a comment. -/
theorem ConfigKey.ofName_comment (rest : List Char) : ConfigKey.ofName ('#' :: rest) = none := by
  rw [Option.eq_none_iff_forall_ne_some]
  intro key hkey
  have hhead : some '#' = key.name.toList.head? :=
    congrArg List.head? (ConfigKey.ofName_eq_some_iff.mp hkey)
  cases key <;> exact absurd hhead (by decide)

namespace Assignment

variable {name raw line : List Char}

/-- What the two parts of a line say. -/
def ofParts (name raw : List Char) : Option Assignment :=
  (ConfigKey.ofName (trimBlanks name)).map (⟨·, trimQuotes (trimBlanks raw)⟩)

theorem ofLine_eq (line : List Char) :
    ofLine line =
      if (trimBlanks line).isEmpty || (trimBlanks line).head? == some '#' then none
      else (cutAt '=' (trimBlanks line)).bind fun parts => ofParts parts.1 parts.2 := by
  unfold ofLine
  dsimp only
  split
  · rfl
  · rw [Option.pure_def, Option.bind_eq_bind]
    congr 1
    funext parts
    rw [ofParts]
    cases ConfigKey.ofName (trimBlanks parts.1) <;> rfl

theorem isBlank_equals : isBlank '=' = false := by decide

theorem ofParts_comment {rest : List Char} (h : name.dropWhile isBlank = '#' :: rest) :
    ofParts name raw = none := by
  have htrim : trimBlanks name = '#' :: (rest.reverse.dropWhile isBlank).reverse := by
    rw [trimBlanks, ← trimBy_dropWhile, h]
    exact trimBy_append_cons (by decide) [] rest
  rw [ofParts, htrim, ConfigKey.ofName_comment, Option.map_none]

/-- **A line is read by its first equals sign.**  That blank lines and comments are left
    out, and that the line is trimmed before it is cut, makes no difference. -/
theorem ofLine_eq_cut (line : List Char) :
    ofLine line = (cutAt '=' line).bind fun parts => ofParts parts.1 parts.2 := by
  rw [ofLine_eq]
  by_cases hmem : '=' ∈ line
  · obtain ⟨name, raw, rfl, hname⟩ := List.eq_append_cons_of_mem hmem
    have hname' : '=' ∉ name.dropWhile isBlank :=
      fun h => hname ((List.dropWhile_suffix _).subset h)
    have htrim : trimBlanks (name ++ '=' :: raw) =
        name.dropWhile isBlank ++ '=' :: (raw.reverse.dropWhile isBlank).reverse :=
      trimBy_append_cons isBlank_equals name raw
    have hparts : ofParts (name.dropWhile isBlank) (raw.reverse.dropWhile isBlank).reverse =
        ofParts name raw := by
      simp only [ofParts, trimBlanks, trimBy_dropWhile, trimBy_reverse_dropWhile]
    rw [htrim, cutAt_append_cons hname, cutAt_append_cons hname', Option.bind_some,
      Option.bind_some, hparts]
    split
    · next hskip =>
      -- of the two tests only the one for comments can succeed, and a comment has no key
      cases hleft : name.dropWhile isBlank with
      | nil =>
        rw [hleft] at hskip
        simp at hskip
      | cons c rest =>
        rw [hleft] at hskip
        obtain rfl : c = '#' := by simpa using hskip
        exact (ofParts_comment hleft).symm
    · rfl
  · have htrim : '=' ∉ trimBlanks line := fun h => hmem (mem_of_mem_trimBy h)
    rw [cutAt_of_not_mem hmem, cutAt_of_not_mem htrim, Option.bind_none, ite_self]

theorem ofLine_append_cons (h : '=' ∉ name) : ofLine (name ++ '=' :: raw) = ofParts name raw := by
  rw [ofLine_eq_cut, cutAt_append_cons h, Option.bind_some]

theorem ofLine_of_not_mem (h : '=' ∉ line) : ofLine line = none := by
  rw [ofLine_eq_cut, cutAt_of_not_mem h, Option.bind_none]

end Assignment

/-- A line that says nothing: it is blank, a comment, has no equals sign, or has an unknown
    key before the first one. -/
inductive Silent (line : List Char) : Prop where
  | blank (h : ∀ c ∈ line, isBlank c = true)
  | comment (h : (trimBlanks line).head? = some '#')
  | unassigned (h : '=' ∉ line)
  | unknown {name raw : List Char} (hline : line = name ++ '=' :: raw) (hname : '=' ∉ name)
      (h : ∀ key : ConfigKey, trimBlanks name ≠ key.name.toList)

theorem silent_iff {line : List Char} : Silent line ↔ Assignment.ofLine line = none := by
  constructor
  · rintro (hblank | hcomment | hnone | ⟨rfl, hname, hkey⟩)
    · refine Assignment.ofLine_of_not_mem fun hmem => ?_
      exact Bool.false_ne_true (Assignment.isBlank_equals.symm.trans (hblank _ hmem))
    · rw [Assignment.ofLine_eq, hcomment, beq_self_eq_true, Bool.or_true, if_pos rfl]
    · exact Assignment.ofLine_of_not_mem hnone
    · have hunknown := Option.eq_none_iff_forall_ne_some.mpr fun key h =>
        hkey key (ConfigKey.ofName_eq_some_iff.mp h)
      rw [Assignment.ofLine_append_cons hname, Assignment.ofParts, hunknown, Option.map_none]
  · intro hnone
    by_cases hmem : '=' ∈ line
    · obtain ⟨name, raw, rfl, hname⟩ := List.eq_append_cons_of_mem hmem
      rw [Assignment.ofLine_append_cons hname, Assignment.ofParts, Option.map_eq_none_iff] at hnone
      refine .unknown rfl hname fun key hkey => ?_
      rw [ConfigKey.ofName_eq_some_iff.mpr hkey] at hnone
      cases hnone
    · exact .unassigned hmem

/-- A line that sets a key.  What stands before its first equals sign is the key and what
    stands after it the value, both without the blanks around them, and the value without the
    quotes around it then. -/
inductive Assigns : List Char → Assignment → Prop where
  | intro {name raw : List Char} {key : ConfigKey} (hname : '=' ∉ name)
      (hkey : trimBlanks name = key.name.toList) :
      Assigns (name ++ '=' :: raw) ⟨key, trimQuotes (trimBlanks raw)⟩

theorem assigns_iff {line : List Char} {a : Assignment} :
    Assigns line a ↔ Assignment.ofLine line = some a := by
  constructor
  · rintro ⟨hname, hkey⟩
    rw [Assignment.ofLine_append_cons hname, Assignment.ofParts,
      ConfigKey.ofName_eq_some_iff.mpr hkey, Option.map_some]
  · intro hsome
    by_cases hmem : '=' ∈ line
    · obtain ⟨name, raw, rfl, hname⟩ := List.eq_append_cons_of_mem hmem
      rw [Assignment.ofLine_append_cons hname, Assignment.ofParts, Option.map_eq_some_iff] at hsome
      obtain ⟨key, hkey, rfl⟩ := hsome
      exact .intro hname (ConfigKey.ofName_eq_some_iff.mp hkey)
    · rw [Assignment.ofLine_of_not_mem hmem] at hsome
      cases hsome

def Blank (pad : List Char) : Prop := ∀ c ∈ pad, isBlank c = true

/-- Another spelling of a line.  Blanks may be added around the line, around the key and
    around the value, and quotes around the value, which is the text after the first equals
    sign without the blanks around it. -/
inductive Respells : List Char → List Char → Prop where
  | line {before after : List Char} (line : List Char) (hbefore : Blank before)
      (hafter : Blank after) : Respells line (before ++ line ++ after)
  | key {name before after : List Char} (raw : List Char) (hname : '=' ∉ name)
      (hbefore : Blank before) (hafter : Blank after) :
      Respells (name ++ '=' :: raw) (before ++ name ++ after ++ '=' :: raw)
  | value {name before after : List Char} (raw : List Char) (hname : '=' ∉ name)
      (hbefore : Blank before) (hafter : Blank after) :
      Respells (name ++ '=' :: raw) (name ++ '=' :: (before ++ raw ++ after))
  | quotes {name before after : List Char} (raw : List Char) (hname : '=' ∉ name)
      (hbefore : ∀ c ∈ before, c = '"') (hafter : ∀ c ∈ after, c = '"') :
      Respells (name ++ '=' :: raw) (name ++ '=' :: (before ++ trimBlanks raw ++ after))

theorem blank_singleton {c : Char} (h : isBlank c = true) : Blank [c] :=
  List.forall_mem_singleton.mpr h

theorem Blank.equals_not_mem {pad : List Char} (h : Blank pad) : '=' ∉ pad := fun hmem =>
  Bool.false_ne_true (Assignment.isBlank_equals.symm.trans (h _ hmem))

theorem trimBlanks_pad {before after : List Char} (hbefore : Blank before) (hafter : Blank after)
    (cs : List Char) : trimBlanks (before ++ cs ++ after) = trimBlanks cs := by
  rw [trimBlanks, trimBy_pad_right hafter, trimBy_pad_left hbefore]

theorem stripped_quotes {quotes : List Char} (h : ∀ c ∈ quotes, c = '"') :
    Stripped isBlank quotes := by
  refine stripped_of_forall fun c hc => ?_
  rw [h c hc]
  decide

/-- **Blanks and quotes make no difference.** -/
theorem Respells.ofLine_eq {line line' : List Char} (h : Respells line line') :
    Assignment.ofLine line' = Assignment.ofLine line := by
  cases h with
  | @line before after _ hbefore hafter =>
    -- the first mark of the line stays the first: blanks have none
    by_cases hmem : '=' ∈ line
    · obtain ⟨name, raw, rfl, hname⟩ := List.eq_append_cons_of_mem hmem
      have hpadded : '=' ∉ before ++ name :=
        List.not_mem_append hbefore.equals_not_mem hname
      have hparts : Assignment.ofParts (before ++ name) (raw ++ after) =
          Assignment.ofParts name raw := by
        simp only [Assignment.ofParts, trimBlanks, trimBy_pad_left hbefore, trimBy_pad_right hafter]
      rw [← List.append_assoc, List.append_assoc, List.cons_append,
        Assignment.ofLine_append_cons hpadded, Assignment.ofLine_append_cons hname, hparts]
    · have hpadded : '=' ∉ before ++ line ++ after :=
        List.not_mem_append (List.not_mem_append hbefore.equals_not_mem hmem)
          hafter.equals_not_mem
      rw [Assignment.ofLine_of_not_mem hmem, Assignment.ofLine_of_not_mem hpadded]
  | @key name before after raw hname hbefore hafter =>
    have hpadded : '=' ∉ before ++ name ++ after :=
      List.not_mem_append (List.not_mem_append hbefore.equals_not_mem hname) hafter.equals_not_mem
    rw [Assignment.ofLine_append_cons hpadded, Assignment.ofLine_append_cons hname,
      Assignment.ofParts, Assignment.ofParts, trimBlanks_pad hbefore hafter]
  | @value name before after raw hname hbefore hafter =>
    rw [Assignment.ofLine_append_cons hname, Assignment.ofLine_append_cons hname,
      Assignment.ofParts, Assignment.ofParts, trimBlanks_pad hbefore hafter]
  | @quotes name before after raw hname hbefore hafter =>
    -- quotes are no blanks, so only the quotes are trimmed off the longer value
    have hstripped : Stripped isBlank (before ++ trimBlanks raw ++ after) :=
      ((stripped_quotes hbefore).append (stripped_trimBy isBlank raw)).append
        (stripped_quotes hafter)
    have hvalue : trimQuotes (trimBlanks (before ++ trimBlanks raw ++ after)) =
        trimQuotes (trimBlanks raw) := by
      have hquote : ∀ quotes : List Char, (∀ c ∈ quotes, c = '"') →
          ∀ c ∈ quotes, (c == '"') = true := fun quotes h c hc => beq_iff_eq.mpr (h c hc)
      rw [show trimBlanks _ = _ from hstripped.trimBy_eq, trimQuotes,
        trimBy_pad_right (hquote _ hafter), trimBy_pad_left (hquote _ hbefore)]
    rw [Assignment.ofLine_append_cons hname, Assignment.ofLine_append_cons hname,
      Assignment.ofParts, Assignment.ofParts, hvalue]

/-! ## 3. The lines of a text -/

/-- A text and its lines.  A line is ended by a line feed, with or without a carriage
    return before it; the last one need not be ended. -/
inductive Written : List (List Char) → List Char → Prop where
  | nil : Written [] []
  | unended {line : List Char} (hline : '\n' ∉ line) (hne : line ≠ []) : Written [line] line
  | ended {line text : List Char} {lines : List (List Char)} (hline : '\n' ∉ line)
      (h : Written lines text) : Written (line :: lines) (line ++ '\n' :: text)
  | returned {line text : List Char} {lines : List (List Char)} (hline : '\n' ∉ line)
      (h : Written lines text) : Written (line :: lines) (line ++ '\r' :: '\n' :: text)

theorem splitLines_of_not_mem {line : List Char} (h : '\n' ∉ line) : splitLines line = [line] := by
  induction line with
  | nil => rfl
  | cons c line ih =>
    rw [List.mem_cons, not_or] at h
    rw [splitLines, if_neg (Ne.symm h.1), ih h.2]

theorem splitLines_append_newline {line : List Char} (h : '\n' ∉ line) (text : List Char) :
    splitLines (line ++ '\n' :: text) = line :: splitLines text := by
  induction line with
  | nil => rw [List.nil_append, splitLines, if_pos rfl]
  | cons c line ih =>
    rw [List.mem_cons, not_or] at h
    rw [List.cons_append, splitLines, if_neg (Ne.symm h.1), ih h.2]

namespace Written

variable {lines : List (List Char)} {text : List Char}

theorem cons {c : Char} (h : Written lines text) (hc : c ≠ '\n') :
    ∃ lines, Written lines (c :: text) := by
  have hmem : ∀ {line : List Char}, '\n' ∉ line → '\n' ∉ c :: line := by
    intro line hline
    rw [List.mem_cons, not_or]
    exact ⟨Ne.symm hc, hline⟩
  cases h with
  | nil => exact ⟨_, .unended (hmem List.not_mem_nil) (List.cons_ne_nil _ _)⟩
  | unended hline _ => exact ⟨_, .unended (hmem hline) (List.cons_ne_nil _ _)⟩
  | ended hline h => exact ⟨_, .ended (hmem hline) h⟩
  | returned hline h => exact ⟨_, .returned (hmem hline) h⟩

/-- Every text has lines. -/
theorem exists_lines (text : List Char) : ∃ lines, Written lines text := by
  induction text with
  | nil => exact ⟨[], .nil⟩
  | cons c text ih =>
    obtain ⟨lines, h⟩ := ih
    by_cases hc : c = '\n'
    · subst hc
      exact ⟨[] :: lines, .ended List.not_mem_nil h⟩
    · exact h.cons hc

/-- A carriage return at the end of a line is blank, and so is a line that is only there
    because the text ends with a line feed. -/
theorem assignments_eq (h : Written lines text) :
    (splitLines text).filterMap Assignment.ofLine = lines.filterMap Assignment.ofLine := by
  induction h with
  | nil => decide
  | unended hline => rw [splitLines_of_not_mem hline]
  | ended hline _ ih =>
    rw [splitLines_append_newline hline, List.filterMap_cons, List.filterMap_cons, ih]
  | @returned line text lines hline _ ih =>
    have hreturn : Blank ['\r'] := blank_singleton (by decide)
    have hspelled : Assignment.ofLine (line ++ ['\r']) = Assignment.ofLine line :=
      (@Respells.line [] ['\r'] line nofun hreturn).ofLine_eq
    have hline' : '\n' ∉ line ++ ['\r'] := List.not_mem_append hline (by decide)
    rw [List.append_cons, splitLines_append_newline hline', List.filterMap_cons,
      List.filterMap_cons, hspelled, ih]

end Written

/-! ## 4. Assignments -/

section Assignments

variable {before between after as as' : List Assignment} {a b : Assignment} {n : Nat}

theorem firstInvalid?_append_cons (ha : a.amount? = some n) :
    firstInvalid? (before ++ a :: after) = firstInvalid? (before ++ after) := by
  have hvalid : a.amount?.isNone = false := by rw [ha, Option.isNone_some]
  rw [firstInvalid?, firstInvalid?, List.find?_append, List.find?_append, List.find?_cons, hvalid]

theorem firstInvalid?_swap (hb : b.amount? = some n) :
    firstInvalid? (before ++ b :: a :: after) = firstInvalid? (before ++ a :: b :: after) := by
  rw [firstInvalid?_append_cons hb, List.append_cons before a after,
    List.append_cons before a (b :: after), firstInvalid?_append_cons hb]

theorem amounts_append (key : ConfigKey) :
    amounts key (before ++ after) = amounts key before ++ amounts key after :=
  List.filterMap_append

theorem amounts_of_ne {key : ConfigKey} (h : a.key ≠ key) :
    amounts key (a :: as) = amounts key as := by
  rw [amounts, List.filterMap_cons, if_neg h, amounts]

theorem amounts_ne_nil (hb : b.amount? = some n) : amounts b.key (between ++ b :: after) ≠ [] := by
  rw [amounts_append, amounts_cons hb, if_pos rfl]
  exact List.append_ne_nil_of_right_ne_nil _ (List.cons_ne_nil _ _)

/-- Each key is set by assignments to that key only. -/
theorem amounts_swap (hkeys : a.key ≠ b.key) (key : ConfigKey) :
    amounts key (before ++ b :: a :: after) = amounts key (before ++ a :: b :: after) := by
  rw [amounts_append, amounts_append]
  by_cases ha : a.key = key
  · have hb : b.key ≠ key := fun hb => hkeys (ha.trans hb.symm)
    simp only [amounts, List.filterMap_cons, if_neg hb]
  · simp only [amounts, List.filterMap_cons, if_neg ha]

namespace Config

theorem load_of_invalid (name : ConfigKey → String) (h : firstInvalid? as = some a) :
    load name as = .error (.invalidValue (name a.key)) := by
  rw [load, foldlM_applyAs_eq, h]
  rfl

theorem load_of_valid (name : ConfigKey → String) (h : firstInvalid? as = none) :
    load name as = (({} : Config).overriddenBy as).checked := by
  rw [load, foldlM_applyAs_eq, h]
  rfl

/-- The first assignment out of range and, if there is none, the last ones to the keys
    are all that counts. -/
theorem load_congr (name : ConfigKey → String) (hfirst : firstInvalid? as' = firstInvalid? as)
    (hlast : firstInvalid? as = none →
      ({} : Config).overriddenBy as' = ({} : Config).overriddenBy as) :
    load name as' = load name as := by
  cases hinvalid : firstInvalid? as with
  | some a => rw [load_of_invalid name hinvalid, load_of_invalid name (hfirst.trans hinvalid)]
  | none =>
    rw [load_of_valid name hinvalid, load_of_valid name (hfirst.trans hinvalid), hlast hinvalid]

theorem load_swap (name : ConfigKey → String) (hkeys : a.key ≠ b.key)
    (hvalid : a.amount? ≠ none ∨ b.amount? ≠ none) :
    load name (before ++ b :: a :: after) = load name (before ++ a :: b :: after) := by
  refine load_congr name ?_ fun _ => ?_
  · rcases hvalid with hvalid | hvalid
    · obtain ⟨n, ha⟩ := Option.ne_none_iff_exists'.mp hvalid
      exact (firstInvalid?_swap ha).symm
    · obtain ⟨n, hb⟩ := Option.ne_none_iff_exists'.mp hvalid
      exact firstInvalid?_swap hb
  · simp only [overriddenBy, amounts_swap hkeys]

/-- An assignment in range is lost if the key is assigned once more. -/
theorem load_shadowed (name : ConfigKey → String) (hkeys : a.key = b.key)
    (hvalid : a.amount? ≠ none) :
    load name (before ++ (between ++ b :: after)) =
      load name (before ++ a :: (between ++ b :: after)) := by
  obtain ⟨n, ha⟩ := Option.ne_none_iff_exists'.mp hvalid
  refine load_congr name (firstInvalid?_append_cons ha).symm fun hnone => ?_
  have hb : b.amount? ≠ none := by
    intro hb
    have hmem : b ∈ before ++ a :: (between ++ b :: after) := by simp
    have := List.find?_eq_none.mp hnone b hmem
    rw [hb] at this
    exact this rfl
  obtain ⟨m, hb⟩ := Option.ne_none_iff_exists'.mp hb
  have hne : amounts b.key (between ++ b :: after) ≠ [] := amounts_ne_nil hb
  generalize between ++ b :: after = later at hne
  have hlast : ∀ key, (amounts key (before ++ later)).getLast? =
      (amounts key (before ++ a :: later)).getLast? := by
    intro key
    rw [amounts_append, amounts_append]
    by_cases hkey : b.key = key
    · -- what decides is the last number of the part that both have
      subst hkey
      rw [amounts_cons ha, if_pos hkeys, List.getLast?_append_of_ne_nil _ hne, List.append_cons,
        List.getLast?_append_of_ne_nil _ hne]
    · rw [amounts_of_ne (hkeys ▸ hkey)]
  simp only [overriddenBy, List.getLastD_eq_getLast?, hlast]

end Config

end Assignments

/-! ## 5. Texts -/

variable {lines : List (List Char)} {as : List Assignment} {text : String}

/-- Some lines and the assignments that they make, in order. -/
inductive Makes : List (List Char) → List Assignment → Prop where
  | nil : Makes [] []
  | silent {line : List Char} {lines : List (List Char)} {as : List Assignment}
      (hline : Silent line) (h : Makes lines as) : Makes (line :: lines) as
  | assigns {line : List Char} {a : Assignment} {lines : List (List Char)} {as : List Assignment}
      (hline : Assigns line a) (h : Makes lines as) : Makes (line :: lines) (a :: as)

def assignmentsOf (lines : List (List Char)) : List Assignment :=
  lines.filterMap Assignment.ofLine

theorem assignmentsOf_append (before after : List (List Char)) :
    assignmentsOf (before ++ after) = assignmentsOf before ++ assignmentsOf after :=
  List.filterMap_append

theorem assignmentsOf_cons_some {line : List Char} {a : Assignment}
    (h : Assignment.ofLine line = some a) (lines : List (List Char)) :
    assignmentsOf (line :: lines) = a :: assignmentsOf lines :=
  List.filterMap_cons_some h

theorem assignmentsOf_cons_none {line : List Char} (h : Assignment.ofLine line = none)
    (lines : List (List Char)) : assignmentsOf (line :: lines) = assignmentsOf lines :=
  List.filterMap_cons_none h

theorem Makes.assignmentsOf_eq (h : Makes lines as) : assignmentsOf lines = as := by
  induction h with
  | nil => rfl
  | silent hline _ ih => rw [assignmentsOf_cons_none (silent_iff.mp hline), ih]
  | assigns hline _ ih => rw [assignmentsOf_cons_some (assigns_iff.mp hline), ih]

/-- Every line either says nothing or makes an assignment. -/
theorem makes_assignmentsOf (lines : List (List Char)) : Makes lines (assignmentsOf lines) := by
  induction lines with
  | nil => exact .nil
  | cons line lines ih =>
    cases hline : Assignment.ofLine line with
    | none =>
      rw [assignmentsOf_cons_none hline]
      exact .silent (silent_iff.mpr hline) ih
    | some a =>
      rw [assignmentsOf_cons_some hline]
      exact .assigns (assigns_iff.mpr hline) ih

theorem ofText_eq_of_written (h : Written lines text.toList) :
    Config.ofText text = Config.load ConfigKey.name (assignmentsOf lines) := by
  rw [Config.ofText_eq_load, Config.assignmentsIn, h.assignments_eq, assignmentsOf]

/-- **What a text says is what its assignments say**, and of those what the first one out
    of range says or else the last ones to the keys. -/
structure ReadsAssignments (lines : List (List Char)) (as : List Assignment) (text : String) :
    Prop where
  /-- The first assignment out of range decides, whatever follows. -/
  invalid : ∀ {before after a}, as = before ++ a :: after →
    firstInvalid? before = none → a.amount? = none →
    Config.ofText text = .error (.invalidValue a.key.name)
  /-- Otherwise the last assignments to the keys decide, and what they make is validated. -/
  valid : firstInvalid? as = none →
    Config.ofText text = (({} : Config).overriddenBy as).checked
  inserted : ∀ {before after line} {text' : String}, lines = before ++ after →
    Silent line → Written (before ++ line :: after) text'.toList →
    Config.ofText text' = Config.ofText text
  respelled : ∀ {before after line line'} {text' : String}, lines = before ++ line :: after →
    Respells line line' → Written (before ++ line' :: after) text'.toList →
    Config.ofText text' = Config.ofText text
  /-- Two neighbours that assign different keys may change places, unless both are out of
      range: then the first of them is the one that the error is about. -/
  swapped : ∀ {before after line other a b} {text' : String},
    lines = before ++ line :: other :: after → Assigns line a → Assigns other b →
    a.key ≠ b.key → a.amount? ≠ none ∨ b.amount? ≠ none →
    Written (before ++ other :: line :: after) text'.toList →
    Config.ofText text' = Config.ofText text
  /-- An assignment in range may be left out if the same key is assigned later. -/
  shadowed : ∀ {before between after line other a b} {text' : String},
    lines = before ++ line :: (between ++ other :: after) → Assigns line a → Assigns other b →
    a.key = b.key → a.amount? ≠ none →
    Written (before ++ (between ++ other :: after)) text'.toList →
    Config.ofText text' = Config.ofText text

theorem Written.readsAssignments (h : Written lines text.toList) (hmakes : Makes lines as) :
    ReadsAssignments lines as text := by
  have htext := ofText_eq_of_written h
  have has := hmakes.assignmentsOf_eq
  constructor
  case invalid =>
    rintro before after a rfl hbefore ha
    have hfirst : firstInvalid? (before ++ a :: after) = some a := by
      rw [firstInvalid?, List.find?_append, ← firstInvalid?, hbefore, Option.none_or,
        List.find?_cons, ha, Option.isNone_none]
    rw [htext, has, Config.load_of_invalid _ hfirst]
  case valid =>
    intro hnone
    rw [htext, has, Config.load_of_valid _ hnone]
  case inserted =>
    rintro before after line text' rfl hsilent h'
    rw [ofText_eq_of_written h', htext, assignmentsOf_append,
      assignmentsOf_cons_none (silent_iff.mp hsilent), assignmentsOf_append]
  case respelled =>
    rintro before after line line' text' rfl hspelled h'
    have hline : assignmentsOf (line' :: after) = assignmentsOf (line :: after) := by
      rw [assignmentsOf, assignmentsOf, List.filterMap_cons, List.filterMap_cons,
        hspelled.ofLine_eq]
    rw [ofText_eq_of_written h', htext, assignmentsOf_append, hline, assignmentsOf_append]
  case swapped =>
    rintro before after line other a b text' rfl hline hother hkeys hvalid h'
    have hline := assigns_iff.mp hline
    have hother := assigns_iff.mp hother
    rw [ofText_eq_of_written h', htext, assignmentsOf_append, assignmentsOf_cons_some hother,
      assignmentsOf_cons_some hline, assignmentsOf_append, assignmentsOf_cons_some hline,
      assignmentsOf_cons_some hother, Config.load_swap _ hkeys hvalid]
  case shadowed =>
    rintro before between after line other a b text' rfl hline hother hkeys hvalid h'
    have hline := assigns_iff.mp hline
    have hother := assigns_iff.mp hother
    rw [ofText_eq_of_written h', htext, assignmentsOf_append, assignmentsOf_append,
      assignmentsOf_append, assignmentsOf_cons_some hother, assignmentsOf_cons_some hline,
      assignmentsOf_append, assignmentsOf_cons_some hother, Config.load_shadowed _ hkeys hvalid]

/-- **A text is read by its assignments**, whichever characters it is made of: it has lines
    that say something or nothing, and what is read depends on these as `ReadsAssignments`
    says. -/
theorem reading_assignments (text : String) :
    (∃ lines as, Written lines text.toList ∧ Makes lines as) ∧
      ∀ lines as, Written lines text.toList → Makes lines as → ReadsAssignments lines as text := by
  obtain ⟨lines, hlines⟩ := Written.exists_lines text.toList
  refine ⟨⟨lines, _, hlines, makes_assignmentsOf lines⟩, ?_⟩
  intro lines as hlines hmakes
  exact hlines.readsAssignments hmakes

/-- The edge is set twice, and the budget not at all. -/
example : Config.ofText "tile_size_px = 128\r\n# tiles\n  tile_size_px=\"64\"" =
    .ok { edge := 64 } := by decide +kernel

end TilePaint
