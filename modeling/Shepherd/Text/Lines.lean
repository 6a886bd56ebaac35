import Shepherd.Text.Fields

/-!
# Lines and Words

* `lines` — the lines of a text, with either line ending; `lines_unlines` for lines that end
  with a newline each.
* `findLine` — the first line that starts with a key, without the key.
* `trim` and `stripPrefix` — a text without the whitespace around it, and without what it
  starts with.
* `unwords` — words with a blank between two; `splitWhitespace_unwords` reads them back.
-/

namespace Shepherd.Text

/-- `lines`: a line ends at a newline, with or without a carriage return before it. -/
def lines : List Char → List (List Char)
  | [] => []
  | '\n' :: text => [] :: lines text
  | '\r' :: '\n' :: text => [] :: lines text
  | c :: text =>
      match lines text with
      | [] => [[c]]
      | line :: rest => (c :: line) :: rest

/-- `trim`. -/
def trim (text : List Char) : List Char :=
  ((text.dropWhile isWhitespace).reverse.dropWhile isWhitespace).reverse

/-- `strip_prefix`. -/
def stripPrefix (key text : List Char) : Option (List Char) :=
  if key.isPrefixOf text then some (text.drop key.length) else none

/-- A line without the carriage return at its end. -/
def chomp (line : List Char) : List Char :=
  if line.getLast? = some '\r' then line.dropLast else line

/-- The rest of the first line that starts with the key. -/
def findLine (key text : List Char) : Option (List Char) :=
  (lines text).findSome? (stripPrefix key)

/-- Words with a blank between two of them. -/
def unwords (word : List Char) (words : List (List Char)) : List Char :=
  word ++ words.flatMap (' ' :: ·)

/-! ### Lines -/

/-- Any other character is in the first line. -/
theorem lines_cons {c : Char} {text : List Char} (hn : c ≠ '\n')
    (hr : c = '\r' → ∀ rest, text ≠ '\n' :: rest) :
    lines (c :: text) =
      match lines text with
      | [] => [[c]]
      | line :: rest => (c :: line) :: rest := by
  rw [lines.eq_def]
  split
  · next h => cases h
  · next h => exact absurd (List.cons.inj h).1 hn
  · next h =>
      obtain ⟨rfl, rfl⟩ := List.cons.inj h
      exact absurd rfl (hr rfl _)
  · next h =>
      obtain ⟨rfl, rfl⟩ := List.cons.inj h
      rfl

/-- Only the end of a line is chomped. -/
theorem chomp_cons {c : Char} {line : List Char} (h : c = '\r' → line ≠ []) :
    chomp (c :: line) = c :: chomp line := by
  cases line with
  | nil =>
      have hc : ¬ c = '\r' := fun hc => h hc rfl
      simp [chomp, hc]
  | cons d line =>
      rw [chomp, List.getLast?_cons_cons, chomp]
      split
      · exact List.dropLast_cons_of_ne_nil (by simp)
      · rfl

/-- A line without a carriage return is left alone. -/
theorem chomp_of_not_mem {line : List Char} (h : '\r' ∉ line) : chomp line = line :=
  if_neg fun hl => h (List.mem_of_getLast? hl)

/-- A text, from its first line on. -/
theorem lines_append {line : List Char} (text : List Char) (hn : '\n' ∉ line) :
    lines (line ++ '\n' :: text) = chomp line :: lines text := by
  induction line with
  | nil => rfl
  | cons c line ih =>
      rw [List.mem_cons, not_or] at hn
      by_cases hc : c = '\r' ∧ line = []
      · obtain ⟨rfl, rfl⟩ := hc
        rfl
      · have hrest : c = '\r' → ∀ rest, line ++ '\n' :: text ≠ '\n' :: rest := by
          intro hr rest heq
          cases line with
          | nil => exact hc ⟨hr, rfl⟩
          | cons d line => exact hn.2 (List.mem_cons.mpr (.inl (List.cons.inj heq).1.symm))
        rw [List.cons_append, lines_cons (Ne.symm hn.1) hrest, ih hn.2,
          chomp_cons fun hr hl => hc ⟨hr, hl⟩]

/-- The lines of a text that ends with others. -/
theorem lines_unlines_append {ls : List (List Char)} (text : List Char) (h : ∀ l ∈ ls, '\n' ∉ l) :
    lines (ls.flatMap (· ++ ['\n']) ++ text) = ls.map chomp ++ lines text := by
  induction ls with
  | nil => rfl
  | cons l ls ih =>
      rw [List.flatMap_cons, List.append_assoc, List.append_assoc, List.singleton_append,
        lines_append _ (h l List.mem_cons_self), ih fun l' hl' => h l' (List.mem_cons_of_mem l hl')]
      rfl

/-- **Lines that end with a newline each are read back.** -/
theorem lines_unlines {ls : List (List Char)} (h : ∀ l ∈ ls, '\n' ∉ l ∧ '\r' ∉ l) :
    lines (ls.flatMap (· ++ ['\n'])) = ls := by
  have hlines := lines_unlines_append [] fun l hl => (h l hl).1
  rw [List.append_nil] at hlines
  rw [hlines, lines, List.append_nil]
  exact (List.map_congr_left fun l hl => chomp_of_not_mem (h l hl).2).trans (List.map_id ls)

/-! ### Words -/

/-- A blank at the front adds no field. -/
theorem splitWhitespace_blank {c : Char} {text : List Char} (h : isWhitespace c = true) :
    splitWhitespace (c :: text) = splitWhitespace text := by
  rw [splitWhitespace, ← List.nil_append (c :: text), List.splitOnP_append_cons [] text h]
  rfl

/-- A blank at the end adds no field. -/
theorem splitWhitespace_append_blank {c : Char} {text : List Char} (h : isWhitespace c = true) :
    splitWhitespace (text ++ [c]) = splitWhitespace text := by
  rw [splitWhitespace, List.splitOnP_append_cons text [] h, List.filter_append]
  exact List.append_nil _

/-- **Words are read back.** -/
theorem splitWhitespace_unwords {word : List Char} {words : List (List Char)} (hw : IsWord word)
    (h : ∀ w ∈ words, IsWord w) : splitWhitespace (unwords word words) = word :: words := by
  have hblank : isWhitespace ' ' = true := by decide
  rw [← splitWhitespace_blank hblank, ← splitWhitespace_append_blank hblank]
  change splitWhitespace ((word :: words).flatMap (' ' :: ·) ++ [' ']) = word :: words
  refine splitWhitespace_fields (fun w hm => ?_) hblank
  rcases List.mem_cons.mp hm with rfl | hm
  · exact hw
  · exact h w hm

/-- A character in the line of words is in a word, or a blank. -/
theorem mem_unwords {c : Char} {word : List Char} {words : List (List Char)}
    (h : c ∈ unwords word words) : c = ' ' ∨ ∃ w ∈ word :: words, c ∈ w := by
  rw [unwords, List.mem_append, List.mem_flatMap] at h
  rcases h with h | ⟨w, hw, h⟩
  · exact .inr ⟨word, List.mem_cons_self, h⟩
  · rcases List.mem_cons.mp h with rfl | h
    · exact .inl rfl
    · exact .inr ⟨w, List.mem_cons_of_mem _ hw, h⟩

/-- No line ends within words. -/
theorem not_mem_unwords {c : Char} {word : List Char} {words : List (List Char)}
    (hc : isWhitespace c = true) (hne : c ≠ ' ') (h : ∀ w ∈ word :: words, IsWord w) :
    c ∉ unwords word words := by
  intro hm
  rcases mem_unwords hm with rfl | ⟨w, hw, hcw⟩
  · exact hne rfl
  · cases hc.symm.trans ((h w hw).2 c hcw)

/-! ### Prefixes -/

/-- What is behind a key. -/
theorem stripPrefix_append (key text : List Char) : stripPrefix key (key ++ text) = some text := by
  rw [stripPrefix, if_pos (by simp), List.drop_left]

/-- What a line starts with, it starts with a carriage return at its end, too. -/
theorem stripPrefix_chomp {key line : List Char} (h : stripPrefix key line = none) :
    stripPrefix key (chomp line) = none := by
  rw [stripPrefix, ite_eq_right_iff] at h ⊢
  refine fun hp => absurd (h ?_) (by simp)
  rw [List.isPrefixOf_iff_prefix] at hp ⊢
  refine hp.trans ?_
  rw [chomp]
  split
  · exact List.dropLast_prefix line
  · exact List.prefix_refl line

section findLine

variable {key : List Char} {before : List (List Char)}

/-- The lines before. -/
theorem findSome?_chomp (h : ∀ l ∈ before, stripPrefix key l = none) :
    (before.map chomp).findSome? (stripPrefix key) = none := by
  rw [List.findSome?_eq_none_iff]
  intro l hl
  obtain ⟨l', hl', rfl⟩ := List.mem_map.mp hl
  exact stripPrefix_chomp (h l' hl')

/-- No line with the key is found if there is none. -/
theorem findLine_eq_none (h : ∀ l ∈ before, '\n' ∉ l ∧ stripPrefix key l = none) :
    findLine key (before.flatMap (· ++ ['\n'])) = none := by
  have hlines := lines_unlines_append [] fun l hl => (h l hl).1
  rw [List.append_nil] at hlines
  rw [findLine, hlines, lines, List.append_nil]
  exact findSome?_chomp fun l hl => (h l hl).2

/-- **The first line that starts with the key**, whatever comes after it. -/
theorem findLine_append {value : List Char} (after : List Char)
    (h : ∀ l ∈ before, '\n' ∉ l ∧ stripPrefix key l = none) (hn : '\n' ∉ key ++ value)
    (hr : '\r' ∉ key ++ value) :
    findLine key (before.flatMap (· ++ ['\n']) ++ (key ++ value) ++ '\n' :: after) =
      some value := by
  rw [findLine, List.append_assoc, lines_unlines_append _ fun l hl => (h l hl).1,
    lines_append _ hn, chomp_of_not_mem hr, List.findSome?_append,
    findSome?_chomp fun l hl => (h l hl).2, Option.none_or, List.findSome?_cons, stripPrefix_append]

end findLine

/-- Whitespace after a word. -/
theorem trim_append {word : List Char} {c : Char} (hw : IsWord word)
    (hc : isWhitespace c = true) : trim (word ++ [c]) = word := by
  obtain ⟨hne, hall⟩ := hw
  have hfront : ∀ {ws : List Char}, ws ≠ [] → (∀ d ∈ ws, isWhitespace d = false) →
      ∀ tail, (ws ++ tail).dropWhile isWhitespace = ws ++ tail := by
    intro ws hws hall tail
    cases ws with
    | nil => exact absurd rfl hws
    | cons d ws => simp [hall d List.mem_cons_self]
  rw [trim, hfront hne hall, List.reverse_append]
  have hrev : word.reverse ≠ [] := by simpa using hne
  have hallrev : ∀ d ∈ word.reverse, isWhitespace d = false := fun d hd =>
    hall d (List.mem_reverse.mp hd)
  have := hfront hrev hallrev []
  rw [List.append_nil] at this
  simp [hc, this]

end Shepherd.Text
