import LoxLang.Parse.Program

/-!
Where declarations stand: directly in a program, a block or a function body, never as a branch or as
the body of a loop.
-/
namespace LoxLang

def Stmt.declares? : Stmt → Option Name
  | .var _ name _ => some name
  | .function _ name _ _ => some name
  | _ => none

mutual

/-- No branch and no loop body in the statement is a declaration. -/
def Stmt.Placed : Stmt → Prop
  | .block _ body => Stmt.AllPlaced body
  | .branch _ _ thenBranch none => thenBranch.declares? = none ∧ thenBranch.Placed
  | .branch _ _ thenBranch (some elseBranch) =>
    (thenBranch.declares? = none ∧ thenBranch.Placed) ∧
      elseBranch.declares? = none ∧ elseBranch.Placed
  | .loop _ _ body => body.declares? = none ∧ body.Placed
  | .function _ _ _ body => Stmt.AllPlaced body
  | _ => True

def Stmt.AllPlaced : List Stmt → Prop
  | [] => True
  | s :: ss => s.Placed ∧ Stmt.AllPlaced ss

end

theorem Stmt.allPlaced_append {ss ts : List Stmt} (hs : AllPlaced ss) (ht : AllPlaced ts) :
    AllPlaced (ss ++ ts) := by
  induction ss with
  | nil => exact ht
  | cons s ss ih => exact ⟨hs.1, ih hs.2⟩

def Stmt.Inner (s : Stmt) : Prop := s.declares? = none ∧ s.Placed

theorem Stmt.placed_forLoop {line : Nat} {initializer : Option Stmt} {condition increment : Option Expr}
    {body : Stmt} (hi : ∀ s ∈ initializer, s.Placed) (hb : body.Inner) :
    (forLoop line initializer condition increment body).Inner := by
  cases initializer with
  | none => cases increment <;>
      simp_all [forLoop, Stmt.Inner, Stmt.Placed, Stmt.AllPlaced, Stmt.declares?, Stmt.ofExpr]
  | some s => cases increment <;>
      simp_all [forLoop, Stmt.Inner, Stmt.Placed, Stmt.AllPlaced, Stmt.declares?, Stmt.ofExpr]

namespace Parser

def Yields (p : Parser α) (P : α → Prop) : Prop := ∀ c a c', p c = .done a c' → P a

section Rules
variable {α β : Type} {P : α → Prop} {R : β → Prop}

theorem Yields.outOfFuel : Yields (outOfFuel : Parser α) P := fun _ _ _ h => nomatch h

theorem Yields.pure {a : α} (h : P a) : Yields (Pure.pure a) P := by
  rintro c b c' ⟨⟩
  exact h

theorem Yields.bind {p : Parser α} {f : α → Parser β} (hp : Yields p P)
    (hf : ∀ a, P a → Yields (f a) R) : Yields (p >>= f) R := by
  intro c b c'' h
  simp only [Bind.bind, Parser.bind] at h
  cases hpc : p c with
  | outOfFuel => simp [hpc] at h
  | fault d c' => simp [hpc] at h
  | done a c' =>
    rw [hpc] at h
    exact hf a (hp c a c' hpc) c' b c'' h

theorem Yields.any (p : Parser α) : Yields p fun _ => True := fun _ _ _ _ => trivial

theorem Yields.then {p : Parser α} {f : α → Parser β} (hf : ∀ a, Yields (f a) R) :
    Yields (p >>= f) R :=
  (Yields.any p).bind fun a _ => hf a

theorem Yields.map {p : Parser α} {f : α → β} (hp : Yields p P) (hf : ∀ a, P a → R (f a)) :
    Yields (f <$> p) R :=
  hp.bind fun a ha => .pure (hf a ha)

theorem Yields.recovering {p : Parser α} (h : Yields p P) :
    Yields (recovering p) fun a? => ∀ a ∈ a?, P a := by
  intro c a? c' hc
  unfold Parser.recovering at hc
  split at hc
  · cases hc
  · cases hc; simp
  · next a _ hpc => cases hc; simpa using h _ _ _ hpc

end Rules

theorem yields_varDeclaration (n : Nat) : Yields (varDeclaration n) Stmt.Placed :=
  .then fun _ => .then fun _ => .then fun _ => .pure trivial

theorem yields_expressionStatement (n : Nat) : Yields (expressionStatement n) Stmt.Inner :=
  .then fun _ => .then fun _ => .pure ⟨rfl, trivial⟩

theorem yields_forInitializer? (n : Nat) :
    Yields (forInitializer? n) fun s? => ∀ s ∈ s?, s.Placed := by
  refine .then fun o => ?_
  split
  · exact .pure (by simp)
  · refine .then fun o => ?_
    split
    · exact (yields_varDeclaration n).map (by simp)
    · exact (yields_expressionStatement n).map fun s hs => by simpa using hs.2

theorem yields_forHead (n : Nat) : Yields (forHead n) fun head => ∀ s ∈ head.initializer, s.Placed :=
  .then fun _ => (yields_forInitializer? n).bind fun _ hs => .then fun _ => .then fun _ =>
    .then fun _ => .then fun _ => .pure hs

structure YieldsPlaced (n : Nat) : Prop where
  declaration : Yields (declaration n) fun s? => ∀ s ∈ s?, s.Placed
  statement : Yields (statement n) Stmt.Inner
  elseBranch? : Yields (elseBranch? n) fun s? => ∀ s ∈ s?, s.Inner
  block : Yields (block n) Stmt.AllPlaced

theorem allPlaced_toList_append {s? : Option Stmt} {ss : List Stmt} (hs : ∀ s ∈ s?, s.Placed)
    (hss : Stmt.AllPlaced ss) : Stmt.AllPlaced (s?.toList ++ ss) := by
  refine Stmt.allPlaced_append ?_ hss
  cases s? with
  | none => trivial
  | some s => exact ⟨hs s rfl, trivial⟩

theorem yieldsPlaced (n : Nat) : YieldsPlaced n := by
  induction n with
  | zero =>
    constructor
    · rw [declaration]; exact .outOfFuel
    · rw [statement]; exact .outOfFuel
    · rw [elseBranch?]; exact .outOfFuel
    · rw [block]; exact .outOfFuel
  | succ n ih =>
    constructor
    case declaration =>
      rw [declaration]
      refine .recovering (.then fun o => ?_)
      split
      · exact .then fun head => ih.block.bind fun body hbody => .pure hbody
      · refine .then fun o => ?_
        split
        · exact yields_varDeclaration n
        · exact fun c s c' h => (ih.statement c s c' h).2
    case statement =>
      rw [statement]
      refine .then fun o => ?_
      split
      · exact yields_expressionStatement n
      · exact .then fun _ => .then fun _ => .pure ⟨rfl, trivial⟩
      · refine .then fun condition => ih.statement.bind fun thenBranch ht => ?_
        refine ih.elseBranch?.bind fun elseBranch he => .pure ⟨rfl, ?_⟩
        cases elseBranch with
        | none => exact ht
        | some s => exact ⟨ht, he s rfl⟩
      · exact .then fun condition => ih.statement.bind fun body hb => .pure ⟨rfl, hb⟩
      · exact (yields_forHead n).bind fun head hh => ih.statement.bind fun body hb =>
          .pure (Stmt.placed_forLoop hh hb)
      · exact .then fun _ => .then fun _ => .pure ⟨rfl, trivial⟩
      · exact ih.block.bind fun body hb => .pure ⟨rfl, hb⟩
    case elseBranch? =>
      rw [elseBranch?]
      refine .then fun o => ?_
      split
      · exact ih.statement.map fun s hs => by simpa using hs
      · exact .pure (by simp)
    case block =>
      rw [block]
      refine .then fun b => ?_
      split
      · exact .then fun _ => .pure trivial
      · exact ih.declaration.bind fun s? hs => ih.block.bind fun ss hss =>
          .pure (allPlaced_toList_append hs hss)

theorem yields_program (n : Nat) : Yields (program n) Stmt.AllPlaced := by
  induction n with
  | zero => exact .outOfFuel
  | succ n ih =>
    rw [program]
    refine .then fun b => ?_
    split
    · exact .pure trivial
    · exact (yieldsPlaced n).declaration.bind fun s? hs => ih.bind fun ss hss =>
        .pure (allPlaced_toList_append hs hss)

end Parser

theorem Parsed.allPlaced_ofTokens (tokens : List Token) (firstId : NodeId) :
    Stmt.AllPlaced (ofTokens tokens firstId).program := by
  unfold ofTokens
  split
  · next hp => exact Parser.yields_program _ _ _ _ hp
  · trivial
  · trivial

end LoxLang
