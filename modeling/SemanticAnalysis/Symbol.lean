import SemanticAnalysis.OrderedMap

/-!
Interned names. A symbol table numbers the distinct strings it has been given
from one, in the order they first came in; a symbol is such a number and means
something only to the table it came from.
-/

namespace SemanticAnalysis

structure Symbol where
  value : Nat
deriving DecidableEq, Inhabited

namespace Symbol

instance : Key Symbol where
  rank a := (0, a.value)
  rank_inj a b h := by
    cases a
    cases b
    simp_all

def order (a b : Symbol) : Ordering := compare a.value b.value

def dump (a : Symbol) : String :=
  "Symbol(SymbolU32 \x7b value: " ++ Nat.repr a.value ++ " \x7d)"

end Symbol

/-- Distinct strings in the order they were first interned. -/
structure SymbolTable where
  names : Array String
deriving Inhabited

namespace SymbolTable

def empty : SymbolTable := ⟨#[]⟩

def get? (t : SymbolTable) (name : String) : Option Symbol :=
  (t.names.findIdx? (· == name)).map fun i => ⟨i + 1⟩

def intern (t : SymbolTable) (name : String) : Symbol × SymbolTable :=
  match t.get? name with
  | some a => (a, t)
  | none => (⟨t.names.size + 1⟩, ⟨t.names.push name⟩)

def internAll (t : SymbolTable) : List String → List Symbol × SymbolTable
  | [] => ([], t)
  | name :: rest =>
    let (a, t₁) := t.intern name
    let (as, t₂) := t₁.internAll rest
    (a :: as, t₂)

def resolve? (t : SymbolTable) (a : Symbol) : Option String :=
  if a.value = 0 then none else t.names[a.value - 1]?

/-- The string a symbol stands for, or a placeholder for a foreign symbol. -/
def display (t : SymbolTable) (a : Symbol) : String := (t.resolve? a).getD "<?>"

end SymbolTable

end SemanticAnalysis
