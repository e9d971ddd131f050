/-!
Lines of a text. `lines` never gives a last line that is empty, and no line holds a line break.
-/
namespace Bronti.Text

/-- A character that ends a line; a carriage return takes the newline after it along. -/
def isLineBreak (c : Char) : Bool :=
  c == '\n' || c == '\r' || c == '\x0b' || c == '\x0c' || c == '\x1c' || c == '\x1d' || c == '\x1e'
    || c == '\u0085' || c == '\u2028' || c == '\u2029'

/-- A carriage return goes away before a newline, and becomes one anywhere else. -/
def normalizeNewlines : List Char → List Char
  | [] => []
  | c :: cs =>
    if c = '\r' then
      if cs.head? = some '\n' then normalizeNewlines cs else '\n' :: normalizeNewlines cs
    else c :: normalizeNewlines cs

/-- The pieces of a text that every line break, each taken by itself, ends. -/
def cutAtBreaks : List Char → List (List Char)
  | [] => []
  | c :: cs =>
    if isLineBreak c then [] :: cutAtBreaks cs
    else match cutAtBreaks cs with
      | [] => [[c]]
      | l :: ls => (c :: l) :: ls

/-- The lines of a text without the breaks that end them. -/
def lines (text : List Char) : List (List Char) := cutAtBreaks (normalizeNewlines text)

/-- Normalized text has no carriage return. -/
theorem not_mem_normalizeNewlines (text : List Char) : '\r' ∉ normalizeNewlines text := by
  induction text with
  | nil => exact List.not_mem_nil
  | cons c cs ih =>
    intro h
    rw [normalizeNewlines] at h
    split at h
    · split at h
      · exact ih h
      · rcases List.mem_cons.1 h with he | hm
        · exact absurd he (by decide)
        · exact ih hm
    · next hc =>
      rcases List.mem_cons.1 h with he | hm
      · exact hc he.symm
      · exact ih hm

/-- Every piece is free of breaks. -/
theorem isLineBreak_of_mem_cutAtBreaks {text l : List Char} (hl : l ∈ cutAtBreaks text) {c : Char}
    (hc : c ∈ l) : isLineBreak c = false := by
  induction text generalizing l with
  | nil => exact absurd hl List.not_mem_nil
  | cons d cs ih =>
    rw [cutAtBreaks] at hl
    split at hl
    · rcases List.mem_cons.1 hl with rfl | hl
      · exact absurd hc List.not_mem_nil
      · exact ih hl hc
    · next hd =>
      split at hl
      · obtain rfl := List.mem_singleton.1 hl
        obtain rfl := List.mem_singleton.1 hc
        exact Bool.not_eq_true _ ▸ hd
      · next m ms hm =>
        rcases List.mem_cons.1 hl with rfl | hl
        · rcases List.mem_cons.1 hc with rfl | hc
          · exact Bool.not_eq_true _ ▸ hd
          · exact ih (hm ▸ List.mem_cons_self) hc
        · exact ih (hm ▸ List.mem_cons_of_mem _ hl) hc

/-- Every line is free of breaks. -/
theorem isLineBreak_of_mem_lines {text l : List Char} (hl : l ∈ lines text) {c : Char}
    (hc : c ∈ l) : isLineBreak c = false :=
  isLineBreak_of_mem_cutAtBreaks hl hc

end Bronti.Text
