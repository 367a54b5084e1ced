import LoxLang.Proofs.Number.Text
import LoxLang.Proofs.Token.Pattern

/-!
Forms: what a tree is written as, words, numbers and quoted texts in nested lists. Written one after another
they can be told apart, wherever a space, a parenthesis or a line feed ends each of them.
-/
namespace LoxLang

inductive Form where
  | word (s : String)
  | number (x : Float)
  | quoted (s : String)
  | list (items : List Form)

namespace Form

mutual

def chars : Form → List Char
  | word s => s.toList
  | number x => (Number.text x).toList
  | quoted s => '"' :: (s.toList ++ ['"'])
  | list [] => ['(', ')']
  | list (f :: fs) => '(' :: (f.chars ++ itemsChars fs)

def itemsChars : List Form → List Char
  | [] => [')']
  | f :: fs => ' ' :: (f.chars ++ itemsChars fs)

end

def delimiters : List Char := [' ', '(', ')', '"', '\n']

def isPlain (c : Char) : Bool := c ∉ delimiters

def Delimited (rest : List Char) : Prop := ∀ c ∈ rest.head?, isPlain c = false

/-- A word that is no number: it begins with a letter, or has no digit. -/
structure IsWord (s : String) : Prop where
  nonempty : s.toList ≠ []
  plain : ∀ c ∈ s.toList, isPlain c = true
  notNumeral : (∀ c ∈ s.toList.head?, isLetter c = true) ∨ ∀ c ∈ s.toList, c.isDigit = false

mutual

def Proper : Form → Prop
  | word s => IsWord s
  | number x => x.isFinite = true
  | quoted s => '"' ∉ s.toList
  | list fs => AllProper fs

def AllProper : List Form → Prop
  | [] => True
  | f :: fs => f.Proper ∧ AllProper fs

end

section Atoms
variable {s t : String} {x y : Float} {text text' rest rest' : List Char}

/-- A run of a class ends where the class ends. -/
theorem run_append_injective {p : Char → Bool} (htext : ∀ c ∈ text, p c = true)
    (htext' : ∀ c ∈ text', p c = true) (hrest : ∀ c ∈ rest.head?, p c = false)
    (hrest' : ∀ c ∈ rest'.head?, p c = false) (h : text ++ rest = text' ++ rest') :
    text = text' ∧ rest = rest' := by
  have hrun {text rest : List Char} (htext : ∀ c ∈ text, p c = true)
      (hrest : ∀ c ∈ rest.head?, p c = false) : (text ++ rest).takeWhile p = text :=
    Piece.takeWhile_run (s := {c | p c = true}) (fun _ => Iff.rfl) htext fun c hc hp =>
      Bool.false_ne_true ((hrest c hc).symm.trans hp)
  have hsame : text = text' := by rw [← hrun htext hrest, h, hrun htext' hrest']
  subst hsame
  exact ⟨rfl, List.append_cancel_left h⟩

theorem isPlain_of_class {p : Char → Bool} (hp : delimiters.any p = false) {c : Char}
    (hc : p c = true) : isPlain c = true :=
  decide_eq_true fun hmem => List.any_eq_false.mp hp c hmem hc

theorem plain_text (h : x.isFinite = true) : ∀ c ∈ (Number.text x).toList, isPlain c = true := by
  intro c hc
  obtain hdigit | rfl | rfl := (Number.mem_text h).2.2 c hc
  · exact isPlain_of_class (p := Char.isDigit) rfl hdigit
  · rfl
  · rfl

theorem IsWord.ne_text (hs : IsWord s) (hx : x.isFinite = true) : s.toList ≠ (Number.text x).toList := by
  obtain ⟨⟨c, hc, hfirst⟩, ⟨d, hd, hdigit⟩, -⟩ := Number.mem_text hx
  intro h
  rw [← h] at hc hd
  obtain hletter | hnone := hs.notNumeral
  · have hletter := hletter c hc
    obtain hdigit | rfl := hfirst
    · rw [not_letter_of_digit hdigit] at hletter
      cases hletter
    · cases hletter
  · rw [hnone d hd] at hdigit
    cases hdigit

inductive Atom : Form → Prop where
  | word {s : String} : IsWord s → Atom (.word s)
  | number {x : Float} : x.isFinite = true → Atom (.number x)

variable {f g : Form}

theorem Atom.plain (hf : f.Atom) : ∀ c ∈ f.chars, isPlain c = true := by
  cases hf with
  | word hs => exact hs.plain
  | number hx => exact plain_text hx

theorem Atom.ne_nil (hf : f.Atom) : f.chars ≠ [] := by
  cases hf with
  | word hs => exact hs.nonempty
  | number hx =>
    obtain ⟨⟨c, hc, -⟩, -, -⟩ := Number.mem_text hx
    rintro hnil
    rw [chars] at hnil
    rw [hnil] at hc
    cases hc

theorem Atom.append_ne_cons {c : Char} (hf : f.Atom) (hc : isPlain c = false) :
    f.chars ++ rest ≠ c :: rest' := by
  intro h
  obtain ⟨d, ds, hd⟩ := List.exists_cons_of_ne_nil hf.ne_nil
  have hplain := hf.plain d (hd ▸ List.mem_cons_self)
  rw [hd] at h
  cases h
  rw [hc] at hplain
  cases hplain

theorem Atom.append_injective (hf : f.Atom) (hg : g.Atom) (hrest : Delimited rest)
    (hrest' : Delimited rest') (h : f.chars ++ rest = g.chars ++ rest') : f = g ∧ rest = rest' := by
  obtain ⟨hchars, hsame⟩ := run_append_injective hf.plain hg.plain hrest hrest' h
  refine ⟨?_, hsame⟩
  cases hf with
  | word hs =>
    cases hg with
    | word ht => exact congrArg Form.word (String.toList_inj.mp hchars)
    | number hy => exact absurd hchars (hs.ne_text hy)
  | number hx =>
    cases hg with
    | word ht => exact absurd hchars.symm (ht.ne_text hx)
    | number hy => exact congrArg Form.number (Number.eq_of_text hx hy (String.toList_inj.mp hchars))

end Atoms

section Injective
variable {rest rest' : List Char}

theorem delimited_itemsChars (fs : List Form) (rest : List Char) : Delimited (itemsChars fs ++ rest) := by
  cases fs <;> (rintro c ⟨⟩; rfl)

theorem chars_list (fs : List Form) : ∃ inside, (list fs).chars = '(' :: inside := by
  cases fs <;> exact ⟨_, rfl⟩

theorem Atom.append_ne_list {f : Form} (hf : f.Atom) (gs : List Form) :
    f.chars ++ rest ≠ (list gs).chars ++ rest' := by
  obtain ⟨inside, hinside⟩ := chars_list gs
  rw [hinside]
  exact hf.append_ne_cons rfl

theorem quoted_append_ne_list (s : String) (gs : List Form) :
    (quoted s).chars ++ rest ≠ (list gs).chars ++ rest' := by
  obtain ⟨inside, hinside⟩ := chars_list gs
  rw [hinside]
  exact fun h => absurd (List.cons.inj h).1 (by decide)

theorem Proper.append_ne_paren {f : Form} (hf : f.Proper) : f.chars ++ rest ≠ ')' :: rest' := by
  cases f with
  | word s => exact Atom.append_ne_cons (.word hf) rfl
  | number x => exact Atom.append_ne_cons (.number hf) rfl
  | quoted s => exact fun h => absurd (List.cons.inj h).1 (by decide)
  | list fs => cases fs <;> exact fun h => absurd (List.cons.inj h).1 (by decide)

mutual

/-- A form that is followed by a delimiter can be read off its text. -/
theorem chars_append_injective : (f g : Form) → {rest rest' : List Char} → f.Proper → g.Proper →
    Delimited rest → Delimited rest' → f.chars ++ rest = g.chars ++ rest' → f = g ∧ rest = rest'
  | .word _, .word _, _, _, hf, hg, hrest, hrest', h =>
    Atom.append_injective (.word hf) (.word hg) hrest hrest' h
  | .word _, .number _, _, _, hf, hg, hrest, hrest', h =>
    Atom.append_injective (.word hf) (.number hg) hrest hrest' h
  | .number _, .word _, _, _, hf, hg, hrest, hrest', h =>
    Atom.append_injective (.number hf) (.word hg) hrest hrest' h
  | .number _, .number _, _, _, hf, hg, hrest, hrest', h =>
    Atom.append_injective (.number hf) (.number hg) hrest hrest' h
  | .word _, .quoted _, _, _, hf, _, _, _, h => absurd h (Atom.append_ne_cons (.word hf) rfl)
  | .number _, .quoted _, _, _, hf, _, _, _, h => absurd h (Atom.append_ne_cons (.number hf) rfl)
  | .quoted _, .word _, _, _, _, hg, _, _, h => absurd h.symm (Atom.append_ne_cons (.word hg) rfl)
  | .quoted _, .number _, _, _, _, hg, _, _, h =>
    absurd h.symm (Atom.append_ne_cons (.number hg) rfl)
  | .quoted s, .quoted t, rest, rest', hf, hg, _, _, h => by
    have hinside {s : String} (hs : '"' ∉ s.toList) : ∀ c ∈ s.toList, decide (c ≠ '"') = true :=
      fun c hc => decide_eq_true fun hquote => hs (hquote ▸ hc)
    simp only [chars, List.cons_append, List.cons.injEq, List.append_assoc, List.nil_append,
      true_and] at h
    obtain ⟨hst, hrest⟩ := run_append_injective (hinside hf) (hinside hg) (by simp) (by simp) h
    exact ⟨congrArg quoted (String.toList_inj.mp hst), (List.cons.inj hrest).2⟩
  | .list fs, .word _, _, _, _, hg, _, _, h => absurd h.symm (Atom.append_ne_list (.word hg) fs)
  | .list fs, .number _, _, _, _, hg, _, _, h => absurd h.symm (Atom.append_ne_list (.number hg) fs)
  | .list fs, .quoted s, _, _, _, _, _, _, h => absurd h.symm (quoted_append_ne_list s fs)
  | .word _, .list gs, _, _, hf, _, _, _, h => absurd h (Atom.append_ne_list (.word hf) gs)
  | .number _, .list gs, _, _, hf, _, _, _, h => absurd h (Atom.append_ne_list (.number hf) gs)
  | .quoted s, .list gs, _, _, _, _, _, _, h => absurd h (quoted_append_ne_list s gs)
  | .list [], .list [], _, _, _, _, _, _, h => ⟨rfl, (List.cons.inj (List.cons.inj h).2).2⟩
  | .list [], .list (g :: gs), rest, rest', _, hg, _, _, h => by
    have h : ')' :: rest = g.chars ++ itemsChars gs ++ rest' := (List.cons.inj h).2
    rw [List.append_assoc] at h
    exact absurd h.symm hg.1.append_ne_paren
  | .list (f :: fs), .list [], rest, rest', hf, _, _, _, h => by
    have h : f.chars ++ itemsChars fs ++ rest = ')' :: rest' := (List.cons.inj h).2
    rw [List.append_assoc] at h
    exact absurd h hf.1.append_ne_paren
  | .list (f :: fs), .list (g :: gs), rest, rest', hf, hg, _, _, h => by
    have h : itemsChars (f :: fs) ++ rest = itemsChars (g :: gs) ++ rest' :=
      congrArg (List.cons ' ') (List.cons.inj h).2
    obtain ⟨hitems, hrest⟩ := itemsChars_append_injective (f :: fs) (g :: gs) hf hg h
    exact ⟨congrArg list hitems, hrest⟩

theorem itemsChars_append_injective : (fs gs : List Form) → {rest rest' : List Char} →
    AllProper fs → AllProper gs → itemsChars fs ++ rest = itemsChars gs ++ rest' →
      fs = gs ∧ rest = rest'
  | [], [], _, _, _, _, h => ⟨rfl, (List.cons.inj h).2⟩
  | [], _ :: _, _, _, _, _, h => absurd (List.cons.inj h).1 (by decide)
  | _ :: _, [], _, _, _, _, h => absurd (List.cons.inj h).1 (by decide)
  | f :: fs, g :: gs, rest, rest', hf, hg, h => by
    have h : f.chars ++ itemsChars fs ++ rest = g.chars ++ itemsChars gs ++ rest' :=
      (List.cons.inj h).2
    rw [List.append_assoc, List.append_assoc] at h
    obtain ⟨hsame, hitems⟩ := chars_append_injective f g hf.1 hg.1 (delimited_itemsChars fs rest)
      (delimited_itemsChars gs rest') h
    obtain ⟨hall, hrest⟩ := itemsChars_append_injective fs gs hf.2 hg.2 hitems
    exact ⟨by rw [hsame, hall], hrest⟩

end

/-- A line feed after each form tells forms apart, too. -/
theorem eq_of_lines : {fs gs : List Form} → AllProper fs → AllProper gs →
    fs.flatMap (·.chars ++ ['\n']) = gs.flatMap (·.chars ++ ['\n']) → fs = gs
  | [], [], _, _, _ => rfl
  | [], g :: gs, _, _, h | g :: gs, [], _, _, h => by simp at h
  | f :: fs, g :: gs, hf, hg, h => by
    have hline (rest : List Char) : Delimited ('\n' :: rest) := by rintro c ⟨⟩; rfl
    simp only [List.flatMap_cons, List.append_assoc, List.cons_append, List.nil_append] at h
    obtain ⟨rfl, hrest⟩ := chars_append_injective f g hf.1 hg.1 (hline _) (hline _) h
    rw [eq_of_lines hf.2 hg.2 (List.cons.inj hrest).2]

end Injective

end Form
end LoxLang
