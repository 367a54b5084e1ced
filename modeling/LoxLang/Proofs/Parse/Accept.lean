import LoxLang.Proofs.Parse.Sound
import LoxLang.Proofs.Parse.Complete

/-!
The parser accepts exactly what the grammar derives, and builds the tree of the one derivation in which
every `else` belongs to the nearest `if`.
-/
namespace LoxLang

namespace Grammar

theorem Statement.append_else {keyword : Token} {us : List Token} {e : Stmt} {isOpenElse : Bool}
    (hk : keyword.kind = .kwElse) (he : Statement True isOpenElse us e) :
    {isOpen : Bool} → {ts : List Token} → {s : Stmt} → Statement True isOpen ts s → isOpen = true →
      ∃ isOpen' s', Statement True isOpen' (ts ++ keyword :: us) s'
  | _, _, _, .expression _, ho | _, _, _, .print _ _ _, ho | _, _, _, .result _ _ _, ho
  | _, _, _, .block _ _ _, ho => nomatch ho
  | _, _, _, @Statement.branch _ _ _ _ _ _ _ isOpen _ hif hopening hclosing hc hs, _ => by
    have ih := Statement.append_else hk he hs
    cases isOpen with
    | false =>
      have h := Statement.branchElse hif hopening hclosing hk (fun _ => rfl) hc hs he
      exact ⟨isOpenElse, _, by simpa using h⟩
    | true =>
      obtain ⟨isOpen', s', h⟩ := ih rfl
      exact ⟨true, _, by simpa using Statement.branch hif hopening hclosing hc h⟩
  | _, _, _, .branchElse hif hopening hclosing hkelse hnearest hc hs hs', ho => by
    obtain ⟨isOpen', s', h⟩ := Statement.append_else hk he hs' ho
    exact ⟨isOpen', _, by
      simpa using Statement.branchElse hif hopening hclosing hkelse hnearest hc hs h⟩
  | _, _, _, .loop hwhile hopening hclosing hc hs, ho => by
    obtain ⟨isOpen', s', h⟩ := Statement.append_else hk he hs ho
    exact ⟨isOpen', _, by simpa using Statement.loop hwhile hopening hclosing hc h⟩
  | _, _, _, .forLoop hfor hopening hsemicolon hclosing hi hc hn hs, ho => by
    obtain ⟨isOpen', s', h⟩ := Statement.append_else hk he hs ho
    exact ⟨isOpen', _, by
      simpa using Statement.forLoop hfor hopening hsemicolon hclosing hi hc hn h⟩

mutual

/-- Where some `if` takes an `else`, the nearest one can take it as well. -/
theorem Statement.nearest : {isOpen : Bool} → {ts : List Token} → {s : Stmt} →
    Statement False isOpen ts s → ∃ isOpen' s', Statement True isOpen' ts s'
  | _, _, _, .expression h => ⟨_, _, .expression h⟩
  | _, _, _, .print hk hsemicolon he => ⟨_, _, .print hk hsemicolon he⟩
  | _, _, _, .branch hk hopening hclosing hc hs => by
    obtain ⟨isOpen', s', h⟩ := Statement.nearest hs
    exact ⟨_, _, .branch hk hopening hclosing hc h⟩
  | _, _, _, .branchElse hk hopening hclosing hkelse _ hc hs hs' => by
    obtain ⟨isOpen, s, h⟩ := Statement.nearest hs
    obtain ⟨isOpenElse, e, h'⟩ := Statement.nearest hs'
    cases isOpen with
    | false => exact ⟨_, _, .branchElse hk hopening hclosing hkelse (fun _ => rfl) hc h h'⟩
    | true =>
      obtain ⟨_, _, hjoined⟩ := Statement.append_else hkelse h' h rfl
      exact ⟨_, _, .branch hk hopening hclosing hc hjoined⟩
  | _, _, _, .loop hk hopening hclosing hc hs => by
    obtain ⟨isOpen', s', h⟩ := Statement.nearest hs
    exact ⟨_, _, .loop hk hopening hclosing hc h⟩
  | _, _, _, .forLoop hk hopening hsemicolon hclosing hi hc hn hs => by
    obtain ⟨isOpen', s', h⟩ := Statement.nearest hs
    exact ⟨_, _, .forLoop hk hopening hsemicolon hclosing hi hc hn h⟩
  | _, _, _, .result hk hsemicolon he => ⟨_, _, .result hk hsemicolon he⟩
  | _, _, _, .block hopening hclosing hss => by
    obtain ⟨ss', h⟩ := Declarations.nearest hss
    exact ⟨_, _, .block hopening hclosing h⟩

theorem Declaration.nearest : {ts : List Token} → {s : Stmt} → Declaration False ts s →
    ∃ s', Declaration True ts s'
  | _, _, .function hk hname hopening hclosing hbrace hclosingBrace hps hlen hss => by
    obtain ⟨ss', h⟩ := Declarations.nearest hss
    exact ⟨_, .function hk hname hopening hclosing hbrace hclosingBrace hps hlen h⟩
  | _, _, .var hk h => ⟨_, .var hk h⟩
  | _, _, .statement h => by
    obtain ⟨isOpen', s', h⟩ := Statement.nearest h
    exact ⟨_, .statement h⟩

theorem Declarations.nearest : {ts : List Token} → {ss : List Stmt} → Declarations False ts ss →
    ∃ ss', Declarations True ts ss'
  | _, _, .nil => ⟨_, .nil⟩
  | _, _, .cons hs hss => by
    obtain ⟨s', h⟩ := Declaration.nearest hs
    obtain ⟨ss', h'⟩ := Declarations.nearest hss
    exact ⟨_, .cons h h'⟩

end

mutual

/-- A derivation with nearest `else` branches is a derivation. -/
theorem Statement.forget : {isOpen : Bool} → {ts : List Token} → {s : Stmt} →
    Statement True isOpen ts s → Statement False isOpen ts s
  | _, _, _, .expression h => .expression h
  | _, _, _, .print hk hsemicolon he => .print hk hsemicolon he
  | _, _, _, .branch hk hopening hclosing hc hs =>
    .branch hk hopening hclosing hc (Statement.forget hs)
  | _, _, _, .branchElse hk hopening hclosing hkelse _ hc hs hs' =>
    .branchElse hk hopening hclosing hkelse nofun hc (Statement.forget hs) (Statement.forget hs')
  | _, _, _, .loop hk hopening hclosing hc hs => .loop hk hopening hclosing hc (Statement.forget hs)
  | _, _, _, .forLoop hk hopening hsemicolon hclosing hi hc hn hs =>
    .forLoop hk hopening hsemicolon hclosing hi hc hn (Statement.forget hs)
  | _, _, _, .result hk hsemicolon he => .result hk hsemicolon he
  | _, _, _, .block hopening hclosing hss => .block hopening hclosing (Declarations.forget hss)

theorem Declaration.forget : {ts : List Token} → {s : Stmt} → Declaration True ts s →
    Declaration False ts s
  | _, _, .function hk hname hopening hclosing hbrace hclosingBrace hps hlen hss =>
    .function hk hname hopening hclosing hbrace hclosingBrace hps hlen (Declarations.forget hss)
  | _, _, .var hk h => .var hk h
  | _, _, .statement h => .statement (Statement.forget h)

theorem Declarations.forget : {ts : List Token} → {ss : List Stmt} → Declarations True ts ss →
    Declarations False ts ss
  | _, _, .nil => .nil
  | _, _, .cons hs hss => .cons (Declaration.forget hs) (Declarations.forget hss)

end

end Grammar

namespace Parsed

open Grammar

/-- Reading without a fault is a derivation. -/
theorem derives_of_faults_eq_nil {tokens : List Token} {firstId : NodeId}
    (h : (ofTokens tokens firstId).faults = []) :
    Declarations True (tokens.takeWhile (·.kind ≠ .eof))
      (Stmt.allBare (ofTokens tokens firstId).program) := by
  have hreads := Parser.reads_program (Parser.fuel tokens) (Cursor.start tokens firstId)
  unfold Parser.ReadsFrom at hreads
  unfold ofTokens at h ⊢
  cases hp : Parser.program (Parser.fuel tokens) (Cursor.start tokens firstId) with
  | outOfFuel => exact absurd hp (Parser.program_ne_outOfFuel tokens firstId)
  | fault d c => simp [hp] at h
  | done program c =>
    simp only [hp] at h hreads ⊢
    have hclean : c.faults.size = (Cursor.start tokens firstId).faults.size := by
      rw [Array.toList_eq_nil_iff.mp h]
      rfl
    obtain ⟨ts, hts, hrest, hd⟩ := hreads.2 hclean
    rw [hrest, List.append_nil] at hts
    rw [← hts] at hd
    exact hd

/-- A derivation is read without a fault, and its tree is built. -/
theorem faults_eq_nil_of_derives {tokens : List Token} {tree : List Stmt} (firstId : NodeId)
    (h : Declarations True (tokens.takeWhile (·.kind ≠ .eof)) tree) :
    (ofTokens tokens firstId).faults = [] ∧
      Stmt.allBare (ofTokens tokens firstId).program = tree := by
  have hbuilds := Parser.builds_program h (Parser.fuel tokens) (Cursor.start tokens firstId) rfl
  unfold ofTokens
  obtain hout | ⟨program, c, hp, htree, -, hfaults⟩ := hbuilds
  · exact absurd hout (Parser.program_ne_outOfFuel tokens firstId)
  · simp only [hp]
    refine ⟨?_, htree⟩
    rw [hfaults]
    rfl

/-- Parsing finds no fault exactly in the tokens that the grammar derives, and gives the tree of the
derivation in which every `else` belongs to the nearest `if`. -/
theorem faults_eq_nil_iff_derives (tokens : List Token) (firstId : NodeId) :
    ((ofTokens tokens firstId).faults = [] ↔
      ∃ tree, Declarations False (tokens.takeWhile (·.kind ≠ .eof)) tree) ∧
    ∀ tree, Declarations True (tokens.takeWhile (·.kind ≠ .eof)) tree ↔
      (ofTokens tokens firstId).faults = [] ∧
        tree = Stmt.allBare (ofTokens tokens firstId).program := by
  refine ⟨⟨fun h => ⟨_, (derives_of_faults_eq_nil h).forget⟩, ?_⟩, fun tree => ⟨fun h => ?_, ?_⟩⟩
  · rintro ⟨tree, htree⟩
    obtain ⟨tree', h⟩ := htree.nearest
    exact (faults_eq_nil_of_derives firstId h).1
  · obtain ⟨hclean, htree⟩ := faults_eq_nil_of_derives firstId h
    exact ⟨hclean, htree.symm⟩
  · rintro ⟨hclean, rfl⟩
    exact derives_of_faults_eq_nil hclean

end Parsed
end LoxLang
