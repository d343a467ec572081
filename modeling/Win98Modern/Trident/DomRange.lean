import Mathlib.Algebra.GroupWithZero.Nat
import Mathlib.Order.Lattice
import Mathlib.Tactic.Common

/-!
# The text of a range

`dom.c` and `range.c` of the engine: a document is a tree of nodes with addresses, and a pointer
to a node is a place in it, the node with the siblings beside it and beside each of its parents.
`shzRangeText` walks from the start of a range to its end.  The tree is read as the line of its
tokens, as one would write it; a boundary is a cut of the line, and the text of a range is what
stands between its cuts (`Range.selected`).
-/

namespace Win98Modern.Dom

open List

/-- The types of the nodes that hold characters. -/
inductive CharKind
  | text | cdata | comment | pi
  deriving DecidableEq, Repr

def CharKind.isText : CharKind → Bool
  | .text | .cdata => true
  | .comment | .pi => false

/-- The other nodes hold children: an element, a document, a fragment. -/
inductive Node
  | chardata (addr : Nat) (kind : CharKind) (data : List UInt16)
  | branch (addr : Nat) (kids : List Node)

namespace Node

def addr : Node → Nat
  | chardata a _ _ | branch a _ => a

def kids : Node → List Node
  | chardata _ _ _ => []
  | branch _ ks => ks

def data : Node → List UInt16
  | chardata _ _ d => d
  | branch _ _ => []

def isChardata : Node → Bool
  | chardata _ _ _ => true
  | branch _ _ => false

def isText : Node → Bool
  | chardata _ k _ => k.isText
  | branch _ _ => false

def length : Node → Nat
  | chardata _ _ d => d.length
  | branch _ ks => ks.length

end Node

/-- A parent: its address and the siblings before, the nearest first, and after. -/
structure Frame where
  addr : Nat
  left : List Node
  right : List Node

/-- A pointer to a node of a tree. -/
structure Place where
  node : Node
  up : List Frame

/-- `shz_node_next_skip` with no root: the next sibling of the node or of the nearest parent that
has one. -/
def nextSkip (n : Node) : List Frame → Option Place
  | [] => none
  | ⟨a, l, r :: rs⟩ :: up => some ⟨r, ⟨a, n :: l, rs⟩ :: up⟩
  | ⟨a, l, []⟩ :: up => nextSkip (.branch a (l.reverse ++ [n])) up

namespace Place

def childAt (p : Place) (i : Nat) : Option Place :=
  p.node.kids[i]?.map fun k => ⟨k, ⟨p.node.addr, (p.node.kids.take i).reverse, p.node.kids.drop (i + 1)⟩ :: p.up⟩

def next (p : Place) : Option Place := (p.childAt 0).or (nextSkip p.node p.up)

def root (p : Place) : Node := p.up.foldl (fun n f => .branch f.addr (f.left.reverse ++ n :: f.right)) p.node

end Place

/-! ### The line of a tree -/

/-- The opening of a node, with its characters if it holds some, its closing, and a character of
a text or of another node. -/
inductive Tok
  | opn (addr : Nat) (chars : Option (CharKind × List UInt16))
  | close
  | char (shown : Bool) (c : UInt16)

def Tok.addr : Tok → Option Nat
  | .opn a _ => some a
  | _ => none

def text (l : List Tok) : List UInt16 := l.filterMap fun
  | .char true c => some c
  | _ => none

mutual

def Node.tokens : Node → List Tok
  | .chardata a k d => .opn a (some (k, d)) :: (d.map (.char k.isText) ++ [.close])
  | .branch a ks => .opn a none :: (line ks ++ [.close])

def line : List Node → List Tok
  | [] => []
  | k :: ks => k.tokens ++ line ks

end

/-- The line before and behind a node. -/
def before : List Frame → List Tok
  | [] => []
  | f :: up => before up ++ .opn f.addr none :: line f.left.reverse

def after : List Frame → List Tok
  | [] => []
  | f :: up => line f.right ++ .close :: after up

def rest : Option Place → List Tok
  | none => []
  | some p => p.node.tokens ++ after p.up

/-- Where a boundary cuts the line. -/
def Place.cut (p : Place) (offset : Nat) : Nat :=
  (before p.up).length + 1 + match p.node with
    | .chardata _ _ _ => offset
    | .branch _ ks => (line (ks.take offset)).length

section Line

variable {p m : Place}

@[simp] theorem line_append (as bs : List Node) : line (as ++ bs) = line as ++ line bs := by
  induction as with
  | nil => rfl
  | cons a as ih => rw [cons_append, line, line, ih, append_assoc]

theorem text_append (a b : List Tok) : text (a ++ b) = text a ++ text b := filterMap_append ..

/-- From a piece of the line without an opening one comes to the place. -/
structure Leads (root : Node) (l x : List Tok) (q : Option Place) : Prop where
  eq : l = x ++ rest q
  skips : ∀ t ∈ x, t.addr = none
  root : ∀ m, q = some m → m.root = root

theorem nextSkip_leads (n : Node) (up : List Frame) :
    ∃ x, Leads (Place.root ⟨n, up⟩) (after up) x (nextSkip n up) ∧ text x = [] := by
  induction up generalizing n with
  | nil => exact ⟨[], ⟨rfl, by simp, by simp [nextSkip]⟩, rfl⟩
  | cons f up ih =>
    obtain ⟨a, l, r⟩ := f
    cases r with
    | cons r rs =>
      refine ⟨[], ⟨?_, by simp, ?_⟩, rfl⟩
      · simp [nextSkip, rest, after, line]
      · intro m hm
        obtain rfl := Option.some.inj hm
        simp [Place.root]
    | nil =>
      obtain ⟨x, hx, htext⟩ := ih (.branch a (l.reverse ++ [n]))
      refine ⟨.close :: x, ⟨?_, ?_, hx.root⟩, htext⟩
      · rw [after, line, nextSkip, hx.eq]
        rfl
      · simpa [Tok.addr] using hx.skips

/-- The line from a cut on. -/
def Place.inner (p : Place) (offset : Nat) : List Tok :=
  match p.node with
  | .chardata _ k d => (d.drop offset).map (.char k.isText) ++ .close :: after p.up
  | .branch _ ks => line (ks.drop offset) ++ .close :: after p.up

def Place.own (p : Place) (offset : Nat) : List UInt16 := if p.node.isText then p.node.data.drop offset else []

theorem text_chars (b : Bool) (d : List UInt16) : text (d.map (.char b)) = if b then d else [] := by
  induction d with
  | nil => cases b <;> rfl
  | cons c d ih => cases b <;> simp_all [text]

/-- From a cut one comes to the child behind it, or to the node behind. -/
theorem inner_leads (p : Place) (i : Nat) : ∃ x, Leads p.root (p.inner i) x
    ((p.childAt i).or (nextSkip p.node p.up)) ∧ text x = p.own i := by
  obtain ⟨n, up⟩ := p
  cases n with
  | chardata a k d =>
    obtain ⟨x, hx, htext⟩ := nextSkip_leads (.chardata a k d) up
    refine ⟨(d.drop i).map (.char k.isText) ++ .close :: x, ⟨?_, ?_, hx.root⟩, ?_⟩
    · simp [Place.inner, Place.childAt, Node.kids, hx.eq]
    · intro t ht
      rcases mem_append.mp ht with ht | ht
      · obtain ⟨c, -, rfl⟩ := mem_map.mp ht
        rfl
      · rcases mem_cons.mp ht with rfl | ht
        · rfl
        · exact hx.skips t ht
    · have hclose : text (.close :: x) = [] := htext
      rw [text_append, text_chars, hclose, append_nil]
      rfl
  | branch a ks =>
    cases hi : ks[i]? with
    | none =>
      obtain ⟨x, hx, htext⟩ := nextSkip_leads (.branch a ks) up
      refine ⟨.close :: x, ⟨?_, ?_, ?_⟩, htext⟩
      · have hks := drop_eq_nil_of_le (List.getElem?_eq_none_iff.mp hi)
        simp [Place.inner, Place.childAt, Node.kids, hi, hks, line, hx.eq]
      · simpa [Tok.addr] using hx.skips
      · simpa [Place.childAt, Node.kids, hi] using hx.root
    | some k =>
      obtain ⟨hlt, hk⟩ := List.getElem?_eq_some_iff.mp hi
      have hdrop : ks.drop i = k :: ks.drop (i + 1) := by rw [← hk, drop_eq_getElem_cons hlt]
      refine ⟨[], ⟨?_, by simp, ?_⟩, rfl⟩
      · simp [Place.inner, Place.childAt, Node.kids, hi, hdrop, rest, after, line]
      · intro m hm
        simp only [Place.childAt, Node.kids, hi] at hm
        obtain rfl := Option.some.inj hm
        have hks : ks.take i ++ k :: ks.drop (i + 1) = ks := hdrop ▸ take_append_drop i ks
        simp [Place.root, Node.addr, hks]

def Place.head (p : Place) : Tok :=
  match p.node with
  | .chardata a k d => .opn a (some (k, d))
  | .branch a _ => .opn a none

@[simp] theorem addr_head (p : Place) : p.head.addr = some p.node.addr := by
  obtain ⟨n, up⟩ := p
  cases n <;> rfl

theorem rest_some (p : Place) : rest (some p) = p.head :: p.inner 0 := by
  obtain ⟨n, up⟩ := p
  cases n <;> simp [rest, Place.head, Place.inner, Node.tokens]

theorem tokens_root (p : Place) : p.root.tokens = before p.up ++ rest (some p) := by
  obtain ⟨n, up⟩ := p
  induction up generalizing n with
  | nil => simp [Place.root, before, rest, after]
  | cons f up ih =>
    have h := ih (.branch f.addr (f.left.reverse ++ n :: f.right))
    simp only [rest] at h ⊢
    simpa [Place.root, before, after, Node.tokens, line] using h

theorem drop_cut (p : Place) {i : Nat} (hi : i ≤ p.node.length) :
    p.root.tokens.drop (p.cut i) = p.inner i := by
  rw [tokens_root, rest_some, Place.cut, Nat.add_assoc, drop_length_add_append, Nat.add_comm 1,
    drop_succ_cons]
  obtain ⟨n, up⟩ := p
  cases n with
  | chardata a k d => simp [Place.inner, drop_append_of_le_length, show i ≤ d.length from hi]
  | branch a ks =>
    have hks : line ks = line (ks.take i) ++ line (ks.drop i) := by
      rw [← line_append, take_append_drop]
    simp [Place.inner, hks]

end Line

/-! ### The walk -/

theorem rest_next_lt (p : Place) : (rest p.next).length < (rest (some p)).length := by
  obtain ⟨x, hx, -⟩ := inner_leads p 0
  rw [rest_some, hx.eq, length_cons, length_append]
  show (rest p.next).length < x.length + (rest p.next).length + 1
  omega

/-- The loop of `shz_range_text` at a place: the texts up to the place `stop`, or to the end `e` of
the range. -/
def walk (stop : Option Place) (e : Place) : Option Place → List UInt16
  | none => []
  | some n =>
    if stop.any (·.node.addr = n.node.addr) then []
    else if n.node.addr = e.node.addr ∧ n.node.isText then []
    else (if n.node.isText then n.node.data else []) ++ walk stop e n.next
termination_by n => (rest n).length
decreasing_by exact rest_next_lt n

/-- A valid range of a tree. -/
structure Range (t : Node) where
  start : Place
  startOff : Nat
  stop : Place
  stopOff : Nat
  start_root : start.root = t
  stop_root : stop.root = t
  start_le : startOff ≤ start.node.length
  stop_le : stopOff ≤ stop.node.length
  order : start.cut startOff ≤ stop.cut stopOff

namespace Range

variable {t : Node} (r : Range t)

def first : Option Place :=
  if r.start.node.isChardata ∨ r.start.node.kids = [] then nextSkip r.start.node r.start.up
  else if r.startOff < r.start.node.kids.length then r.start.childAt r.startOff
  else nextSkip r.start.node r.start.up

/-- The node the end boundary points before. -/
def limit : Option Place :=
  if r.stop.node.isChardata then some r.stop
  else if r.stopOff < r.stop.node.kids.length then r.stop.childAt r.stopOff
  else nextSkip r.stop.node r.stop.up

def shzRangeText : List UInt16 :=
  if r.start.node.addr = r.stop.node.addr ∧ r.start.node.isText then
    if r.startOff < r.stopOff then (r.start.node.data.drop r.startOff).take (r.stopOff - r.startOff) else []
  else
    (if r.start.node.isText then r.start.node.data.drop r.startOff else []) ++
      walk r.limit r.stop r.first ++
      (if r.stop.node.isText ∧ r.stop.node.addr ≠ r.start.node.addr then r.stop.node.data.take r.stopOff else [])

/-- The text of the range: of the Text nodes inside, and the selected parts of those at its ends. -/
def selected : List UInt16 :=
  text ((t.tokens.take (r.stop.cut r.stopOff)).drop (r.start.cut r.startOff))

end Range

end Win98Modern.Dom
