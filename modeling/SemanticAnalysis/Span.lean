/-!
Source positions. A span is a half-open range of byte offsets; the join of two
spans is the least span that covers both.
-/

namespace SemanticAnalysis

/-- The bytes from `start` up to, but not including, `stop`. -/
structure Span where
  start : Nat
  stop : Nat
deriving DecidableEq, Inhabited

namespace Span

def join (a b : Span) : Span := ⟨min a.start b.start, max a.stop b.stop⟩

/-- The number of bytes covered; a span that ends before it starts covers none. -/
def length (a : Span) : Nat := a.stop - a.start

def contains (a b : Span) : Bool := a.start ≤ b.start && b.stop ≤ a.stop

def order (a b : Span) : Ordering := (compare a.start b.start).then (compare a.stop b.stop)

def hull : List Span → Option Span
  | [] => none
  | a :: rest => some (rest.foldl join a)

def text (a : Span) : String := Nat.repr a.start ++ ":" ++ Nat.repr a.stop

end Span

structure Located (α : Type) where
  item : α
  span : Span

def Located.map {α β : Type} (f : α → β) (a : Located α) : Located β := ⟨f a.item, a.span⟩

end SemanticAnalysis
