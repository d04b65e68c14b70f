import SemanticAnalysis.OrderedMap

/-!
Type variables and the supply that issues them. Variables are numbered in the
order they are issued and are written in base 26, where `a` is the zero digit:
`a`, ..., `z`, `ba`, `bb`, ...
-/

namespace SemanticAnalysis

structure TyVar where
  index : Nat
deriving DecidableEq, Inhabited

namespace TyVar

instance : Key TyVar where
  rank v := (0, v.index)
  rank_inj v w h := by
    cases v
    cases w
    simp_all

def letter (digit : Nat) : Char := Char.ofNat ('a'.toNat + digit)

/-- Puts the letters of a number in base 26 after some others, the least significant first. -/
def spell (digits : Array Char) (n : Nat) : Array Char :=
  if n / 26 = 0 then digits.push (letter (n % 26))
  else spell (digits.push (letter (n % 26))) (n / 26)
termination_by n
decreasing_by omega

def letters (n : Nat) : List Char := (spell #[] n).toList.reverse

def name (v : TyVar) : String := String.ofList (letters v.index)

def dump (v : TyVar) : String := "'" ++ v.name

end TyVar

/-- How many variables have been issued. The next one issued has that index. -/
structure Supply where
  issued : Nat
deriving DecidableEq, Inhabited

namespace Supply

def empty : Supply := ⟨0⟩

def fresh (s : Supply) : TyVar × Supply := (⟨s.issued⟩, ⟨s.issued + 1⟩)

def freshList (s : Supply) : Nat → List TyVar × Supply
  | 0 => ([], s)
  | n + 1 =>
    let (v, s₁) := s.fresh
    let (vs, s₂) := s₁.freshList n
    (v :: vs, s₂)

end Supply

end SemanticAnalysis
