import Mathlib.Data.List.TakeWhile
import Mathlib.Order.Basic
import LoxLang.Prompt

/-!
The lines of an input, by their ends alone, and the texts among them that a prompt reads.
-/
namespace LoxLang
namespace Prompt

variable {bytes line rest : List UInt8} {cut : List (List UInt8)} {texts : List String} {n : Nat}

inductive Cut : List UInt8 → List (List UInt8) → Prop where
  | nothing : Cut [] []
  /-- A carriage return at the end of the input is part of the line. -/
  | last {line : List UInt8} : line ≠ [] → 10 ∉ line → Cut line [line]
  | newline {line rest : List UInt8} {cut : List (List UInt8)} :
    10 ∉ line → line.getLast? ≠ some 13 → Cut rest cut → Cut (line ++ 10 :: rest) (line :: cut)
  | carriageReturn {line rest : List UInt8} {cut : List (List UInt8)} :
    10 ∉ line → Cut rest cut → Cut (line ++ 13 :: 10 :: rest) (line :: cut)

def bytesOf (text : String) : List UInt8 := text.toUTF8.data.toList

/-- These texts are the lines of the input before the first that is not UTF-8. -/
def IsLines (input : ByteArray) (texts : List String) : Prop :=
  ∃ rest, Cut input.data.toList (texts.map bytesOf ++ rest) ∧
    ∀ line ∈ rest.head?, ∀ text, bytesOf text ≠ line

theorem ne_newline (h : 10 ∉ line) : ∀ b ∈ line, decide (b ≠ 10) = true := fun _ hb =>
  decide_eq_true (ne_of_mem_of_not_mem hb h)

theorem firstLine_last (h : 10 ∉ line) : firstLine line = (line, []) := by
  simp only [firstLine, List.takeWhile_eq_self_iff.mpr (ne_newline h),
    List.dropWhile_eq_nil_iff.mpr (ne_newline h)]
  rfl

theorem firstLine_ended (h : 10 ∉ line) (rest : List UInt8) :
    firstLine (line ++ 10 :: rest) =
      (if line.getLast? = some 13 then line.dropLast else line, rest) := by
  have htake : (line ++ 10 :: rest).takeWhile (· ≠ 10) = line := by
    rw [List.takeWhile_append_of_pos (ne_newline h)]
    exact List.append_nil line
  have hdrop : (line ++ 10 :: rest).dropWhile (· ≠ 10) = 10 :: rest :=
    List.dropWhile_append_of_pos (ne_newline h)
  simp only [firstLine, htake, hdrop]
  rfl

theorem linesWithin_succ (hne : bytes ≠ []) (n : Nat) :
    linesWithin (n + 1) bytes = (firstLine bytes).1 :: linesWithin n (firstLine bytes).2 := by
  cases bytes with
  | nil => exact absurd rfl hne
  | cons b bytes => rfl

/-- A line with its end takes up a byte at least, so as many lines as bytes are enough. -/
theorem Cut.linesWithin_eq (h : Cut bytes cut) (hle : bytes.length ≤ n) :
    linesWithin n bytes = cut := by
  induction h generalizing n with
  | nothing => cases n <;> rfl
  | last hne hline =>
    obtain ⟨n, rfl⟩ := Nat.exists_eq_add_of_le' ((List.length_pos_iff.mpr hne).trans_le hle)
    rw [linesWithin_succ hne, firstLine_last hline]
    cases n <;> rfl
  | @newline line rest cut hline hend _ ih =>
    simp only [List.length_append, List.length_cons] at hle
    obtain ⟨n, rfl⟩ := Nat.exists_eq_add_of_le' (show 1 ≤ n by omega)
    rw [linesWithin_succ (by simp), firstLine_ended hline, if_neg hend, ih (by omega)]
  | @carriageReturn line rest cut hline _ ih =>
    have hended : 10 ∉ line ++ [13] := by simp [hline]
    have hbytes : line ++ 13 :: 10 :: rest = (line ++ [13]) ++ 10 :: rest := by simp
    simp only [List.length_append, List.length_cons] at hle
    obtain ⟨n, rfl⟩ := Nat.exists_eq_add_of_le' (show 1 ≤ n by omega)
    rw [hbytes, linesWithin_succ (by simp), firstLine_ended hended,
      if_pos List.getLast?_concat, List.dropLast_concat, ih (by omega)]

theorem exists_cut (bytes : List UInt8) : ∃ cut, Cut bytes cut := by
  -- By the number of bytes: the first newline ends the first line.
  induction hlength : bytes.length using Nat.strongRecOn generalizing bytes with
  | ind n ih =>
    by_cases hmem : 10 ∈ bytes
    · obtain ⟨line, rest, rfl, hline⟩ := List.eq_append_cons_of_mem hmem
      simp only [List.length_append, List.length_cons] at hlength
      obtain ⟨cut, hcut⟩ := ih rest.length (by omega) rest rfl
      by_cases hend : line.getLast? = some 13
      · obtain ⟨line, rfl⟩ := List.getLast?_eq_some_iff.mp hend
        have hline : 10 ∉ line := fun h => hline (List.mem_append_left _ h)
        exact ⟨line :: cut, by simpa using hcut.carriageReturn hline⟩
      · exact ⟨line :: cut, hcut.newline hline hend⟩
    · by_cases hne : bytes = []
      · exact ⟨[], hne ▸ .nothing⟩
      · exact ⟨[bytes], .last hne hmem⟩

theorem cut_iff : Cut bytes cut ↔ cut = linesWithin bytes.length bytes := by
  constructor
  · exact fun h => (h.linesWithin_eq le_rfl).symm
  · rintro rfl
    obtain ⟨cut, hcut⟩ := exists_cut bytes
    rwa [hcut.linesWithin_eq le_rfl]

theorem fromUTF8?_eq_some {b : ByteArray} {text : String} :
    String.fromUTF8? b = some text ↔ text.toUTF8 = b := by
  unfold String.fromUTF8?
  split
  · next hvalid => rw [Option.some_inj, ← String.toByteArray_inj, eq_comm]; rfl
  · next hvalid =>
    exact ⟨fun h => absurd h (by simp), fun h => absurd (h ▸ text.isValidUTF8) hvalid⟩

theorem fromUTF8?_line {text : String} :
    String.fromUTF8? ⟨line.toArray⟩ = some text ↔ bytesOf text = line := by
  rw [fromUTF8?_eq_some, bytesOf, ByteArray.ext_iff, eq_comm, List.toArray_eq_iff, eq_comm]

def leadingTexts (cut : List (List UInt8)) : List String :=
  ((cut.map fun line => String.fromUTF8? ⟨line.toArray⟩).takeWhile Option.isSome).filterMap id

theorem leadingTexts_cons (text : String) (cut : List (List UInt8)) :
    leadingTexts (bytesOf text :: cut) = text :: leadingTexts cut := by
  have htext : String.fromUTF8? ⟨(bytesOf text).toArray⟩ = some text := fromUTF8?_line.mpr rfl
  simp [leadingTexts, htext]

theorem leadingTexts_broken (h : ∀ text, bytesOf text ≠ line) (cut : List (List UInt8)) :
    leadingTexts (line :: cut) = [] := by
  have hnone : String.fromUTF8? ⟨line.toArray⟩ = none :=
    Option.eq_none_iff_forall_ne_some.mpr fun text htext => h text (fromUTF8?_line.mp htext)
  simp [leadingTexts, hnone]

theorem leadingTexts_append (hstop : ∀ line ∈ cut.head?, ∀ text, bytesOf text ≠ line) :
    leadingTexts (texts.map bytesOf ++ cut) = texts := by
  induction texts with
  | nil =>
    cases cut with
    | nil => rfl
    | cons line cut => exact leadingTexts_broken (hstop line rfl) cut
  | cons text texts ih =>
    rw [List.map_cons, List.cons_append, leadingTexts_cons, ih]

theorem exists_leadingTexts (cut : List (List UInt8)) :
    ∃ rest, cut = (leadingTexts cut).map bytesOf ++ rest ∧
      ∀ line ∈ rest.head?, ∀ text, bytesOf text ≠ line := by
  induction cut with
  | nil => exact ⟨[], rfl, by simp⟩
  | cons line cut ih =>
    by_cases htext : ∃ text, bytesOf text = line
    · obtain ⟨text, rfl⟩ := htext
      obtain ⟨rest, hrest, hstop⟩ := ih
      refine ⟨rest, ?_, hstop⟩
      rw [leadingTexts_cons, List.map_cons, List.cons_append, ← hrest]
    · have hbroken := not_exists.mp htext
      refine ⟨line :: cut, by rw [leadingTexts_broken hbroken]; rfl, ?_⟩
      rintro _ ⟨⟩
      exact hbroken

theorem isLines_iff {input : ByteArray} : IsLines input texts ↔ texts = lines input := by
  have hlines : lines input = leadingTexts (linesWithin input.size input.data.toList) := rfl
  have hsize : input.data.toList.length = input.size := rfl
  constructor
  · rintro ⟨rest, hcut, hstop⟩
    rw [hlines, ← hsize, ← cut_iff.mp hcut, leadingTexts_append hstop]
  · rintro rfl
    obtain ⟨rest, hrest, hstop⟩ :=
      exists_leadingTexts (linesWithin input.size input.data.toList)
    exact ⟨rest, cut_iff.mpr (hlines ▸ hsize ▸ hrest.symm), hstop⟩

end Prompt
end LoxLang
