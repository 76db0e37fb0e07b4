/-!
# Quoted text

A text is written between double quotes with a backslash before every backslash and double quote. A
reader also accepts single quotes, so it drops a backslash before any of the three and keeps every
other one. `unescape_escape`: what is written is read back.
-/

namespace ExprLang.Text

def escape : List Char → List Char
  | [] => []
  | c :: r => if c = '\\' ∨ c = '"' then '\\' :: c :: escape r else c :: escape r

def unescape : List Char → List Char
  | '\\' :: c :: r =>
    if c = '\\' ∨ c = '"' ∨ c = '\x27' then c :: unescape r else '\\' :: c :: unescape r
  | c :: r => c :: unescape r
  | [] => []

theorem unescape_cons {c : Char} (h : c ≠ '\\') (r : List Char) : unescape (c :: r) = c :: unescape r := by
  rw [unescape]
  intro d s e _
  exact h e

theorem unescape_escape (cs : List Char) : unescape (escape cs) = cs := by
  induction cs with
  | nil => rfl
  | cons c r ih =>
    by_cases h : c = '\\' ∨ c = '"'
    · rcases h with rfl | rfl <;> simp [escape, unescape, ih]
    · have hc : c ≠ '\\' := fun e => h (Or.inl e)
      simp [escape, h, unescape_cons hc, ih]

/-- A text between double quotes. -/
def quote (s : String) : String := String.ofList ('"' :: escape s.toList ++ ['"'])

end ExprLang.Text
