/-
  QueryAudit.Sample.Product — combinations of samples

  The combinations of several lists, the first list varying slowest, and as many of them from the
  front as are wanted without building the rest.
-/

namespace QueryAudit.Sample

variable {α : Type}

/-- All combinations of one element from each list, the first list varying slowest. -/
def product : List (List α) → List (List α)
  | [] => [[]]
  | items :: rest => items.flatMap fun x => (product rest).map (x :: ·)

def firstProducts (count : Nat) : List (List α) → List (List α)
  | [] => [[]].take count
  | items :: rest =>
    let tails := firstProducts count rest
    ((items.take count).flatMap fun x => tails.map (x :: ·)).take count

end QueryAudit.Sample
