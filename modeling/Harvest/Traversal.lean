/-!
# Depth-first traversal

Visits what can be reached over the edges of a finite graph, each key at most once, a node before
its successors. The same traversal follows included files, `using` directives and base classes.
-/

namespace Harvest

/-- A list without the occurrences of `k`. -/
def without {κ : Type} [DecidableEq κ] (k : κ) (ks : List κ) : List κ := ks.filter (· ≠ k)

theorem length_without_lt {κ : Type} [DecidableEq κ] {k : κ} {ks : List κ} (h : k ∈ ks) :
    (without k ks).length < ks.length :=
  List.length_filter_lt_length_iff_exists.2 ⟨k, h, by simp⟩

section

variable {α κ : Type}

/-- Visits nodes one after the other. `visit` gives what it has visited and the keys that are left. -/
def visitAll (visit : α → List κ → List α × List κ) : List α → List κ → List α × List κ
  | [], fresh => ([], fresh)
  | node :: rest, fresh =>
    let (found, fresh) := visit node fresh
    let (more, fresh) := visitAll visit rest fresh
    (found ++ more, fresh)

variable [DecidableEq κ]

/-- Visits a node and what it leads to over paths of at most `length` nodes. -/
def visit (key : α → κ) (next : α → List α) : Nat → α → List κ → List α × List κ
  | 0, _, fresh => ([], fresh)
  | length + 1, node, fresh =>
    if key node ∈ fresh then
      let (found, fresh) := visitAll (visit key next length) (next node) (without (key node) fresh)
      (node :: found, fresh)
    else ([], fresh)

/-- The nodes reached from the nodes on `stack` over `next`, in depth-first order. Only keys in
`fresh` are visited, and visiting one uses it up, so that no path is longer than `fresh`. -/
def preorder (key : α → κ) (next : α → List α) (fresh : List κ) (stack : List α) : List α :=
  (visitAll (visit key next fresh.length) stack fresh).1

end

end Harvest
