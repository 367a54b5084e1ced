import LoxLang.Proofs.Token.Lines
import LoxLang.Proofs.Token.Partition

/-!
Scanning lexemes again. With single spaces between them the lexemes of a source are scanned to the tokens
that they are, whatever stood between them in the source.
-/
namespace LoxLang

namespace Token

def content (t : Token) : Kind × String × Option Literal := (t.kind, t.lexeme, t.literal)

def toPiece (t : Token) : Piece := ⟨some t.kind, t.lexeme.toList⟩

structure Stable (t : Token) : Prop where
  isToken : t.kind.isToken
  alone : Piece.ofChars t.lexeme.toList = [t.toPiece]
  literal : t.literal = Literal.ofText? t.kind t.lexeme.toList

end Token

def spaced (ts : List Token) : String := " ".intercalate (ts.map Token.lexeme)

def respaced (source : String) : String := spaced (readable (scan source).tokens)

def Piece.space : Piece := ⟨some .blank, [' ']⟩

theorem Token.isToken_of_ofPiece? {line : Nat} {p : Piece} {t : Token} (h : ofPiece? line p = some t) :
    t.kind.isToken := by
  unfold ofPiece? at h
  split at h
  · split at h <;> cases h
    assumption
  · cases h

section Stable

variable {t u : Token} {ts : List Token}

/-- A source is scanned to stable tokens, whatever its faults. -/
theorem stable_of_mem_tokensOf {source : String} (h : t ∈ tokensOf source) : t.Stable := by
  obtain ⟨p, hp, last, hpiece⟩ := Piece.ofPiece?_of_mem_tokens h
  obtain ⟨c, rest, rfl⟩ := Piece.eq_first_of_mem_cut hp
  obtain ⟨hfirst, hliteral⟩ := Piece.ofPiece?_eq_some hpiece
  refine ⟨Token.isToken_of_ofPiece? hpiece, ?_, hliteral⟩
  obtain ⟨d, text, htext, -⟩ := Piece.first_of_mem_pattern (Piece.first_mem_pattern hfirst)
  have hstart := Piece.first_isPrefix c rest
  rw [hfirst, htext] at hstart
  obtain ⟨rfl, -⟩ := List.cons_prefix_cons.mp hstart
  rw [htext] at hfirst
  rw [Token.toPiece, htext, Piece.ofChars_cons, Piece.first_self hfirst, List.length_cons,
    Nat.add_sub_cancel, List.drop_length]
  rfl

theorem Token.Stable.ofPiece (h : t.Stable) (line : Nat) :
    Token.ofPiece? line t.toPiece = some { t with line } := by
  rw [Token.toPiece, Token.ofPiece?]
  dsimp only
  rw [if_pos h.isToken, String.ofList_toList, ← h.literal]

theorem Token.Stable.noFault (h : t.Stable) (line : Nat) : Diagnostic.ofPiece? line t.toPiece = none := by
  have htoken := h.isToken
  rw [Diagnostic.ofPiece?, Token.toPiece]
  split
  · next hkind => cases hkind
  · next hkind =>
    rw [Option.some_inj.mp hkind] at htoken
    cases htoken
  · rfl

theorem Token.Stable.head_not_blank (h : t.Stable) (more : List Char) :
    ∀ c ∈ (t.lexeme.toList ++ more).head?, isBlank c = false := by
  intro c hc
  cases hlexeme : t.lexeme.toList with
  | nil =>
    have halone := h.alone
    rw [hlexeme] at halone
    cases halone
  | cons d rest =>
    rw [hlexeme] at hc
    obtain rfl : d = c := Option.some_inj.mp hc
    have halone := h.alone
    rw [hlexeme, Piece.ofChars_cons] at halone
    have hfirst := (List.cons.inj halone).1
    by_contra hblank
    rw [Piece.first_blank (Bool.not_eq_false _ ▸ hblank), Token.toPiece, Piece.mk.injEq,
      Option.some_inj] at hfirst
    have htoken := h.isToken
    rw [← hfirst.1] at htoken
    cases htoken

/-- No piece goes on from a lexeme into what stands behind a space. -/
theorem Token.Stable.ofChars_append (h : t.Stable) {rest : List Char}
    (hrest : ∀ c ∈ rest.head?, isBlank c = false) :
    Piece.ofChars (t.lexeme.toList ++ ' ' :: rest) =
      t.toPiece :: Piece.space :: Piece.ofChars rest := by
  have hends : ∀ p ∈ Piece.ofChars t.lexeme.toList, Piece.EndsAt ' ' p.kind := by
    rw [h.alone, List.forall_mem_singleton]
    exact Piece.endsAt_space h.isToken
  have hspace : rest.takeWhile isBlank = [] := by
    cases rest with
    | nil => rfl
    | cons c rest => rw [List.takeWhile_cons, hrest c rfl]; rfl
  rw [Piece.ofChars_separator _ _ hends, h.alone, Piece.ofChars_cons, Piece.first_blank rfl, hspace]
  rfl

theorem toList_spaced_cons_cons (t u : Token) (ts : List Token) :
    (spaced (t :: u :: ts)).toList = t.lexeme.toList ++ ' ' :: (spaced (u :: ts)).toList := by
  simp [spaced, String.toList_intercalate]

theorem toList_spaced_cons (t : Token) (ts : List Token) :
    ∃ more, (spaced (t :: ts)).toList = t.lexeme.toList ++ more := by
  cases ts with
  | nil => exact ⟨[], by simp [spaced]⟩
  | cons u ts => exact ⟨_, toList_spaced_cons_cons t u ts⟩

/-- Spaced lexemes fall into the lexemes and the spaces. -/
theorem ofChars_spaced (ts : List Token) (h : ∀ t ∈ ts, t.Stable) :
    Piece.ofChars (spaced ts).toList = (ts.map Token.toPiece).intersperse Piece.space := by
  match ts with
  | [] => rfl
  | [t] => simpa [spaced] using (h t List.mem_cons_self).alone
  | t :: u :: ts =>
    obtain ⟨ht, hts⟩ := List.forall_mem_cons.mp h
    obtain ⟨more, hmore⟩ := toList_spaced_cons u ts
    -- The next lexeme begins with no blank, so the space before it is a piece of its own.
    have hhead : ∀ c ∈ (spaced (u :: ts)).toList.head?, isBlank c = false :=
      hmore ▸ (hts u List.mem_cons_self).head_not_blank more
    rw [toList_spaced_cons_cons, ht.ofChars_append hhead, ofChars_spaced _ hts]
    rfl

/-- Of the lexemes and the spaces only the lexemes become anything, and each becomes its token. -/
theorem tokens_faults_intersperse (ts : List Token) (h : ∀ t ∈ ts, t.Stable) (line : Nat) :
    (Piece.tokens line ((ts.map Token.toPiece).intersperse Piece.space)).map Token.content =
        ts.map Token.content ∧
      Piece.faults line ((ts.map Token.toPiece).intersperse Piece.space) = [] := by
  match ts with
  | [] => exact ⟨rfl, rfl⟩
  | [t] =>
    obtain ⟨ht, -⟩ := List.forall_mem_cons.mp h
    change (Piece.tokens line [t.toPiece]).map Token.content = _ ∧ Piece.faults line [t.toPiece] = []
    rw [Piece.tokens_cons, ht.ofPiece, Piece.faults_cons, ht.noFault]
    exact ⟨rfl, rfl⟩
  | t :: u :: ts =>
    obtain ⟨ht, hts⟩ := List.forall_mem_cons.mp h
    have hpieces : ((t :: u :: ts).map Token.toPiece).intersperse Piece.space =
      t.toPiece :: Piece.space :: ((u :: ts).map Token.toPiece).intersperse Piece.space := rfl
    rw [hpieces, Piece.tokens_cons, ht.ofPiece, Piece.tokens_cons, Piece.faults_cons, ht.noFault,
      Piece.faults_cons, List.map_append, List.map_append]
    obtain ⟨htokens, hfaults⟩ := tokens_faults_intersperse _ hts
      (line + t.toPiece.text.count '\n' + Piece.space.text.count '\n')
    rw [htokens, hfaults]
    exact ⟨rfl, rfl⟩

theorem readable_scan (source : String) : readable (scan source).tokens = tokensOf source :=
  takeWhile_before_eof (fun _ => kind_ne_eof_of_mem) _

theorem scan_spaced_of_stable (ts : List Token) (h : ∀ t ∈ ts, t.Stable) :
    (scan (spaced ts)).faults = [] ∧
      (readable (scan (spaced ts)).tokens).map Token.content = ts.map Token.content := by
  rw [readable_scan, scan_faults, tokensOf, ofChars_spaced ts h]
  exact (tokens_faults_intersperse ts h 1).symm

/-- The text depends on the lexemes only. -/
theorem spaced_eq_of_content {us : List Token} (h : ts.map Token.content = us.map Token.content) :
    spaced ts = spaced us := by
  have hlexemes : ts.map Token.lexeme = us.map Token.lexeme := by
    have h := congrArg (List.map fun content => content.2.1) h
    rwa [List.map_map, List.map_map] at h
  rw [spaced, spaced, hlexemes]

end Stable

/-- The lexemes of a source, joined by single spaces, are scanned without a fault to tokens of the same
kinds, lexemes and literals in the same order, also where the source has faults or comments. Joining those
again gives the same text. -/
theorem scan_respaced (source : String) :
    (scan (respaced source)).faults = [] ∧
      (readable (scan (respaced source)).tokens).map Token.content =
        (readable (scan source).tokens).map Token.content ∧
      respaced (respaced source) = respaced source := by
  have hstable : ∀ t ∈ readable (scan source).tokens, t.Stable := by
    rw [readable_scan]
    exact fun t => stable_of_mem_tokensOf
  obtain ⟨hfaults, hcontent⟩ := scan_spaced_of_stable _ hstable
  exact ⟨hfaults, hcontent, spaced_eq_of_content hcontent⟩

end LoxLang
