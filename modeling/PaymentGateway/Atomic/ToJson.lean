/-
# What `toJson` says

`src/atomic_tree.cpp`, lines 189-205.  `toJson` puts the JSON text of the tree
together by hand: names between quotes and not escaped, the two keywords, commas
from the second child on, brackets and braces.  The dashboard parses it and draws
the `name`, `isLocked` and `children` of every object.

`document` is what the dashboard is to be told, as a JSON value.  Every piece of the
text denotes its part of it (`denotes_serialize`), because no character of a name
ends the name, so the text is parsed as the document of the tree and nothing is left
over (`toJson_decodes`).
-/

import PaymentGateway.Atomic.Machine
import PaymentGateway.Lib.Json

namespace PaymentGateway
namespace Atomic

open Lib

variable (t : TreeShape)

/-- `serialize`, the recursive lambda of `toJson`; `lockState n` is what its load at the
node `n` returns. -/
def serialize (lockState : ℕ → ℤ) (n : ℕ) : String :=
  "\x7b\"name\":\"" ++ t.name n ++ "\",\"isLocked\":" ++
    (if lockState n = 1 then "true" else "false") ++ ",\"children\":[" ++
    ",".intercalate ((t.children n).attach.map fun c => serialize lockState c.1) ++ "]\x7d"
termination_by t.size - n
decreasing_by
  have h₁ := t.lt_of_mem_children c.2
  have h₂ := t.children_lt_size c.2
  omega

/-- The JSON value of a node: its name, whether it is locked, and its children in order. -/
def document (isLocked : ℕ → Bool) (n : ℕ) : Json :=
  .object [("name", .string (t.name n)), ("isLocked", .bool (isLocked n)),
    ("children", .array ((t.children n).attach.map fun c => document isLocked c.1))]
termination_by t.size - n
decreasing_by
  have h₁ := t.lt_of_mem_children c.2
  have h₂ := t.children_lt_size c.2
  omega

theorem serialize_eq (lockState : ℕ → ℤ) (n : ℕ) :
    serialize t lockState n =
      "\x7b\"name\":\"" ++ t.name n ++ "\",\"isLocked\":" ++
        (if lockState n = 1 then "true" else "false") ++ ",\"children\":[" ++
        ",".intercalate ((t.children n).map (serialize t lockState)) ++ "]\x7d" := by
  rw [serialize, List.attach_map_val]

theorem document_eq (isLocked : ℕ → Bool) (n : ℕ) :
    document t isLocked n =
      .object [("name", .string (t.name n)), ("isLocked", .bool (isLocked n)),
        ("children", .array ((t.children n).map (document t isLocked)))] := by
  rw [document, List.attach_map_val]

namespace AtomicPaymentTree

/-- `toJson`, with no writer at work. -/
def toJson (t : AtomicPaymentTree) : String :=
  match t.shape.root with
  | none => "\x7b\x7d"
  | some root => serialize t.shape (fun n => (t.mem.node n).lockState) root

/-- The JSON value of a tree; the empty tree is the empty object. -/
def document (t : AtomicPaymentTree) : Json :=
  match t.shape.root with
  | none => .object []
  | some root => Atomic.document t.shape (fun n => (t.mem.node n).lockState = 1) root

end AtomicPaymentTree

variable {t}

/-- **Every node is written as its document**, whatever text follows. -/
theorem denotes_serialize (hname : ∀ n < t.size, Json.Plain (t.name n))
    (lockState : ℕ → ℤ) {n : ℕ} (hn : n < t.size) :
    Json.Denotes Json.value (serialize t lockState n).toList
      (document t (fun n => lockState n = 1) n) := by
  induction n using serialize.induct t with
  | case1 n ih =>
      have hchildren : List.Forall₂ (Json.Denotes Json.value)
          (((t.children n).map (serialize t lockState)).map String.toList)
          ((t.children n).map (document t fun n => lockState n = 1)) := by
        rw [List.map_map, List.forall₂_map_left_iff, List.forall₂_map_right_iff, List.forall₂_same]
        exact fun c hc => ih ⟨c, hc⟩ (t.children_lt_size hc)
      have hmember₁ := Json.denotes_member "name" (by decide) (Json.denotes_string (hname n hn))
      have hmember₂ := Json.denotes_member "isLocked" (by decide)
        (Json.denotes_bool (lockState n = 1))
      have hmember₃ := Json.denotes_member "children" (by decide) (Json.denotes_array hchildren)
      have hobject := Json.denotes_object (.cons hmember₁ (.cons hmember₂ (.cons hmember₃ .nil)))
      rw [serialize_eq, document_eq]
      convert hobject using 1
      simp

namespace AtomicPaymentTree

/-- **`toJson` decodes back to the tree.**  Whatever `addNode` calls built the tree, as
long as no name has a quote, a backslash or a control character (printable ASCII has
none but the first two), and whatever the `lockState` of every node is, the text is one
JSON value with nothing after it: the document of the tree. -/
theorem toJson_decodes (adds : List NodeSpec)
    (hname : ∀ a ∈ adds, Json.Plain a.nodeName) (m : Memory) :
    Json.parse (toJson { build adds with mem := m }) =
      some (document { build adds with mem := m }) := by
  have hnames : ∀ n < (TreeShape.build adds).size, Json.Plain ((TreeShape.build adds).name n) := by
    intro n hn
    obtain ⟨a, ha, heq⟩ := TreeShape.exists_spec_of_lt hn
    rw [heq]
    exact hname a ha
  rw [toJson, document, build_shape_eq]
  cases hroot : (TreeShape.build adds).root with
  | none =>
      have hempty : Json.Denotes Json.value "\x7b\x7d".toList (.object []) :=
        Json.denotes_object .nil
      exact hempty.parse
  | some root =>
      exact (denotes_serialize hnames _ ((TreeShape.build adds).root_lt hroot)).parse

/-- The tree of `main.cpp` cut down to three nodes, with a lock on the second: the text
in full, and what it is parsed as. -/
theorem toJson_decodes_cards :
    let t : AtomicPaymentTree :=
      { build [⟨"PaymentSystem", ""⟩, ⟨"Cards", "PaymentSystem"⟩, ⟨"UPI", "PaymentSystem"⟩] with
        mem := ⟨fun n => if n = 1 then ⟨1, 7, 0, 0⟩ else .fresh, {}⟩ }
    t.toJson = "\x7b\"name\":\"PaymentSystem\",\"isLocked\":false,\"children\":[" ++
        "\x7b\"name\":\"Cards\",\"isLocked\":true,\"children\":[]\x7d," ++
        "\x7b\"name\":\"UPI\",\"isLocked\":false,\"children\":[]\x7d]\x7d" ∧
      Json.parse t.toJson = some t.document := by
  refine ⟨by decide +kernel, toJson_decodes _ (by decide) _⟩

end AtomicPaymentTree

end Atomic
end PaymentGateway
