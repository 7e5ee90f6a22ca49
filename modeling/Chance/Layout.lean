/-!
# Layout of documents

A document is a text with places where a line may end. A group is laid out on one line if it fits
into the width together with what follows it up to the next line end; otherwise its own line ends
are taken, and the groups inside it are judged in turn. Widths count bytes.
-/

namespace Chance

inductive Doc where
  | nil
  | text (s : String)
  /-- A line end, or `flat` on one line. -/
  | line (flat : String)
  | append (left right : Doc)
  /-- Line ends inside are followed by so many more spaces. -/
  | nest (indent : Nat) (d : Doc)
  | group (d : Doc)
deriving Inhabited

namespace Doc

instance : Append Doc := ⟨append⟩

/-- A line end, or a space. -/
def space : Doc := .line " "

/-- A line end, or nothing. -/
def gap : Doc := .line ""

/-- The documents in a row, with `separator` between them. -/
def intersperse (separator : Doc) : List Doc → Doc
  | [] => .nil
  | [d] => d
  | d :: ds => d ++ separator ++ intersperse separator ds

/-- The number of nodes. -/
def size : Doc → Nat
  | nil => 1
  | text _ => 1
  | line _ => 1
  | append l r => l.size + r.size + 1
  | nest _ d => d.size + 1
  | group d => d.size + 1

end Doc

namespace Layout

/-- A part of a document that waits to be laid out. -/
structure Item where
  indent : Nat
  flat : Bool
  doc : Doc

def weight (items : List Item) : Nat :=
  items.foldr (fun i n => i.doc.size + n) 0

/-- Whether the items fit into the remaining width up to the first line end taken. -/
def fits (items : List Item) (room : Nat) : Bool :=
  match items with
  | [] => true
  | ⟨_, _, .nil⟩ :: rest => fits rest room
  | ⟨_, _, .text s⟩ :: rest =>
    if s.utf8ByteSize ≤ room then fits rest (room - s.utf8ByteSize) else false
  | ⟨_, flat, .line s⟩ :: rest =>
    if !flat then true
    else if s.utf8ByteSize ≤ room then fits rest (room - s.utf8ByteSize) else false
  | ⟨i, flat, .append l r⟩ :: rest => fits (⟨i, flat, l⟩ :: ⟨i, flat, r⟩ :: rest) room
  | ⟨i, flat, .nest _ d⟩ :: rest => fits (⟨i, flat, d⟩ :: rest) room
  | ⟨i, flat, .group d⟩ :: rest => fits (⟨i, flat, d⟩ :: rest) room
termination_by weight items
decreasing_by all_goals simp [weight, Doc.size] <;> omega

/-- Lays the items out from the given column on; `out` is what stands before. -/
def layOut (width : Nat) (items : List Item) (column : Nat) (out : String) : String :=
  match items with
  | [] => out
  | ⟨_, _, .nil⟩ :: rest => layOut width rest column out
  | ⟨_, _, .text s⟩ :: rest => layOut width rest (column + s.utf8ByteSize) (out ++ s)
  | ⟨i, flat, .line s⟩ :: rest =>
    if flat then layOut width rest (column + s.utf8ByteSize) (out ++ s)
    else layOut width rest i (out ++ "\n" ++ String.ofList (List.replicate i ' '))
  | ⟨i, flat, .append l r⟩ :: rest =>
    layOut width (⟨i, flat, l⟩ :: ⟨i, flat, r⟩ :: rest) column out
  | ⟨i, flat, .nest n d⟩ :: rest => layOut width (⟨i + n, flat, d⟩ :: rest) column out
  | ⟨i, flat, .group d⟩ :: rest =>
    let one := flat || (column ≤ width && fits (⟨i, true, d⟩ :: rest) (width - column))
    layOut width (⟨i, one, d⟩ :: rest) column out
termination_by weight items
decreasing_by all_goals simp [weight, Doc.size] <;> omega

end Layout

/-- The text of a document within the given width. -/
def Doc.render (d : Doc) (width : Nat) : String :=
  Layout.layOut width [⟨0, false, d⟩] 0 ""

end Chance
