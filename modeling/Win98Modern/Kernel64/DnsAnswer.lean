import Win98Modern.Kernel64.Dns
import Mathlib.Logic.Relation

/-!
# Addresses of a response

`Belongs`: an address stands in an A record of a response, whose owner is reached from the name asked for
by CNAME records of that response.  `parseResponse_sound`: this holds of the addresses that
`parse_response` returns, where different names of the response have different texts.
-/

namespace Win98Modern.Dns

open List

/-! ### Records -/

/-- The record of this number of the answer section starts at an offset. -/
inductive AnswerAt (p : List Byte) : Nat → Nat → Prop
  | first {ls : List Text} {next : Nat} (h : NameAt p 12 ls next) : AnswerAt p 0 (next + 4)
  | next {i off : Nat} {ls : List Text} {next : Nat} (hprev : AnswerAt p i off) (h : NameAt p off ls next) :
      AnswerAt p (i + 1) (next + 10 + rd16 p (next + 8))

def IsRecord (p : List Byte) (owner : List Text) (r : RR) : Prop :=
  ∃ i next, i < rd16 p 6 ∧ AnswerAt p i r.off ∧ NameAt p r.off owner next ∧
    r = ⟨r.off, rd16 p next, rd16 p (next + 8), next + 10, rd32 p (next + 4)⟩ ∧ r.rdoff + r.rdlen ≤ p.length

def Alias (p : List Byte) (a b : List Text) : Prop :=
  ∃ owner r target next, IsRecord p owner r ∧ r.type = CNAME ∧ NameAt p r.rdoff target next ∧ a = lower owner ∧
    b = lower target

/-- A response to this id and question has the address in an A record for the name, with this time to live
at least. -/
def Belongs (p : List Byte) (id : Nat) (q : List Text) (x ttl : Nat) : Prop :=
  rd16 p 0 = id ∧ 0x8000 ≤ rd16 p 2 ∧ (∃ ls next, NameAt p 12 ls next ∧ lower ls = q) ∧
    ∃ owner r, IsRecord p owner r ∧ r.type = A ∧ r.rdlen = 4 ∧ Relation.ReflTransGen (Alias p) q (lower owner) ∧
      rd32 p r.rdoff = x ∧ ttl ≤ r.ttl

/-- Where a name is read: the question, the owners and the targets of CNAMEs. -/
def Field (p : List Byte) (off : Nat) : Prop :=
  off = 12 ∨ (∃ i < rd16 p 6, AnswerAt p i off) ∨ ∃ owner r, IsRecord p owner r ∧ r.type = CNAME ∧ off = r.rdoff

def IsName (p : List Byte) (q a : List Text) : Prop :=
  a = q ∨ ∃ off ls next, Field p off ∧ NameAt p off ls next ∧ a = lower ls

def Clear (p : List Byte) (q : List Text) : Prop :=
  ∀ a b, IsName p q a → IsName p q b → cstr (textOf a) = cstr (textOf b) → a = b

variable {p : List Byte} {q : List Text} {rrs : List RR} {r : RR} {off n id : Nat} {name : Text}

theorem records_sound (n : Nat) : ∀ {i off : Nat}, AnswerAt p i off → i + n ≤ rd16 p 6 →
    ∀ r ∈ records p n off, ∃ owner, IsRecord p owner r := by
  induction n with
  | zero => exact fun _ _ r hr => absurd hr not_mem_nil
  | succ n ih =>
    intro i off hat hn r hr
    rw [records] at hr
    cases hname : dnsName p off with
    | stuck =>
      rw [hname] at hr
      exact absurd hr not_mem_nil
    | bad =>
      rw [hname] at hr
      exact absurd hr not_mem_nil
    | name text next =>
      obtain ⟨ls, hls, -⟩ := dnsName_sound hname
      rw [hname] at hr
      dsimp only at hr
      split at hr
      case isTrue => exact absurd hr not_mem_nil
      case isFalse hfit =>
        rcases mem_cons.1 hr with rfl | hr
        · exact ⟨ls, i, next, by omega, hat, hls, rfl, by dsimp only; omega⟩
        · exact ih (hat.next hls) (by omega) r hr

theorem IsRecord.isName {owner : List Text} (h : IsRecord p owner r) : IsName p q (lower owner) := by
  obtain ⟨i, next, hi, hat, hname, -⟩ := h
  exact .inr ⟨r.off, owner, next, .inr (.inl ⟨i, hi, hat⟩), hname, rfl⟩

theorem IsRecord.owner {owner : List Text} {text : Text} {nx : Nat} (h : IsRecord p owner r)
    (hr : dnsName p r.off = .name text nx) : text = textOf (lower owner) := by
  obtain ⟨i, next, -, -, hat, -⟩ := h
  obtain ⟨ls, hls, htext, -⟩ := dnsName_sound hr
  rw [htext, (hls.unique hat).1]

/-! ### CNAMEs -/

/-- `cur` is the text of a name that is reached from the question. -/
def Reached (p : List Byte) (q : List Text) (cur : Text) : Prop :=
  ∃ c, Relation.ReflTransGen (Alias p) q c ∧ IsName p q c ∧ cur = cstr (textOf c)

theorem chaseOne_sound (hclear : Clear p q) (hr : ∃ owner, IsRecord p owner r) {c : Chase} (hc : Reached p q c.cur) :
    Reached p q (chaseOne p c r).cur := by
  obtain ⟨owner, hrec⟩ := hr
  rw [chaseOne]
  split
  case isTrue => exact hc
  case isFalse htype =>
    cases ho : dnsName p r.off with
    | stuck => exact hc
    | bad => exact hc
    | name otext onext =>
      cases ht : dnsName p r.rdoff with
      | stuck => exact hc
      | bad => exact hc
      | name ttext tnext =>
        dsimp only
        split
        case isTrue => exact hc
        case isFalse heq =>
          obtain ⟨b, hreach, hb, hcur⟩ := hc
          obtain ⟨target, htarget, httext, hlen⟩ := dnsName_sound ht
          have hfield : Field p r.rdoff := .inr (.inr ⟨owner, r, hrec, not_not.1 htype, rfl⟩)
          have howner : lower owner = b := by
            refine hclear _ _ hrec.isName hb ?_
            rw [← hrec.owner ho, ← hcur]
            exact not_not.1 heq
          have halias : Alias p b (lower target) :=
            ⟨owner, r, target, tnext, hrec, not_not.1 htype, htarget, howner.symm, rfl⟩
          have hfit : (cstr ttext).take (nameCap - 1) = cstr ttext :=
            take_of_length_le (Nat.le_trans (cstr_length ttext) (Nat.le_sub_one_of_lt hlen))
          refine ⟨lower target, hreach.tail halias, .inr ⟨r.rdoff, target, tnext, hfield, htarget, rfl⟩, ?_⟩
          rw [← httext]
          show (if cstr ttext ≠ c.cur then (cstr ttext).take (nameCap - 1) else c.cur) = cstr ttext
          by_cases hsame : cstr ttext = c.cur
          · rw [if_neg (not_not.2 hsame), hsame]
          · rw [if_pos hsame, hfit]

theorem chase_sound (hclear : Clear p q) (hrrs : ∀ r ∈ rrs, ∃ owner, IsRecord p owner r) (n : Nat) :
    ∀ {cur : Text} (ttl : Nat), Reached p q cur → Reached p q (chase p rrs n cur ttl).1 := by
  have hpass : ∀ (l : List RR) (c : Chase), (∀ r ∈ l, ∃ owner, IsRecord p owner r) → Reached p q c.cur →
      Reached p q (l.foldl (chaseOne p) c).cur := by
    intro l
    induction l with
    | nil => exact fun _ _ hc => hc
    | cons r l ih =>
      intro c hl hc
      exact ih _ (fun r' hr' => hl r' (mem_cons_of_mem _ hr'))
        (chaseOne_sound hclear (hl r mem_cons_self) hc)
  induction n with
  | zero => exact fun _ hcur => hcur
  | succ n ih =>
    intro cur ttl hcur
    rw [chase]
    split
    case isTrue => exact ih _ (hpass rrs _ hrrs hcur)
    case isFalse => exact hpass rrs _ hrrs hcur

/-! ### Addresses -/

/-- An address that has been collected for a name. -/
def Collected (p : List Byte) (c : List Text) (ttl x : Nat) : Prop :=
  ∃ owner r, IsRecord p owner r ∧ r.type = A ∧ r.rdlen = 4 ∧ lower owner = c ∧ rd32 p r.rdoff = x ∧ ttl ≤ r.ttl

theorem collect_sound {c : List Text} (hclear : Clear p q) (hc : IsName p q c) (l : List RR) : ∀ (acc : List Nat × Nat),
    (∀ r ∈ l, ∃ owner, IsRecord p owner r) → (∀ x ∈ acc.1, Collected p c acc.2 x) →
      ∀ x ∈ (l.foldl (collectOne p (cstr (textOf c))) acc).1,
        Collected p c (l.foldl (collectOne p (cstr (textOf c))) acc).2 x := by
  induction l with
  | nil => exact fun _ _ hacc => hacc
  | cons r l ih =>
    intro acc hl hacc
    obtain ⟨owner, hrec⟩ := hl r mem_cons_self
    refine ih _ (fun r' hr' => hl r' (mem_cons_of_mem _ hr')) ?_
    rw [collectOne]
    split
    case isTrue => exact hacc
    case isFalse htype =>
      rw [not_or, not_or] at htype
      cases ho : dnsName p r.off with
      | stuck => exact hacc
      | bad => exact hacc
      | name text next =>
        dsimp only
        split
        case isTrue => exact hacc
        case isFalse heq =>
          intro x hx
          rcases mem_append.1 hx with hx | hx
          · obtain ⟨o, r', hrec', ht, hl', hlow, hx', httl⟩ := hacc x hx
            exact ⟨o, r', hrec', ht, hl', hlow, hx', Nat.le_trans (Nat.min_le_left _ _) httl⟩
          · have howner : lower owner = c := by
              refine hclear _ _ hrec.isName hc ?_
              rw [← hrec.owner ho]
              exact not_not.1 heq
            exact ⟨owner, r, hrec, not_not.1 htype.2.1, not_not.1 htype.2.2, howner, (mem_singleton.1 hx).symm,
              Nat.min_le_right _ _⟩

theorem of_ite_error {α : Type} {c : Prop} [Decidable c] {e : Err} {x : Except Err α} {y : α}
    (h : (if c then .error e else x) = .ok y) : ¬c ∧ x = .ok y := by
  by_cases hc : c
  · rw [if_pos hc] at h
    exact nomatch h
  · rw [if_neg hc] at h
    exact ⟨hc, h⟩

theorem parseResponse_sound {addr : List Nat} {ttl : Nat} (hname : Accepted name) (hclear : Clear p (labels [] name))
    (h : parseResponse p id name = .ok (addr, ttl)) : ∀ x ∈ addr, Belongs p id (labels [] name) x ttl := by
  obtain ⟨hid, h⟩ := of_ite_error h
  obtain ⟨hqr, h⟩ := of_ite_error h
  obtain ⟨-, h⟩ := of_ite_error h
  obtain ⟨-, h⟩ := of_ite_error h
  obtain ⟨-, h⟩ := of_ite_error h
  obtain ⟨-, h⟩ := of_ite_error h
  cases hq : dnsName p 12 with
  | stuck =>
    rw [hq] at h
    exact nomatch h
  | bad =>
    rw [hq] at h
    exact nomatch h
  | name owner off =>
    rw [hq] at h
    obtain ⟨hquestion, h⟩ := of_ite_error h
    obtain ⟨-, h⟩ := of_ite_error h
    obtain ⟨ls, hls, htext, -⟩ := dnsName_sound hq
    have hself : cstr (textOf (labels [] name)) = name := by rw [textOf_labels hname, cstr_eq_self hname.nonzero]
    have hsame : lower ls = labels [] name := by
      refine hclear _ _ (.inr ⟨12, ls, off, .inl rfl, hls, rfl⟩) (.inl rfl) ?_
      rw [← htext, hself]
      by_contra hne
      exact hquestion (.inl hne)
    have hrrs : ∀ r ∈ records p (min (rd16 p 6) 48) (off + 4), ∃ o, IsRecord p o r :=
      records_sound _ (.first hls) (by omega)
    have htake : name.take (nameCap - 1) = name :=
      take_of_length_le (Nat.le_trans hname.length (by decide))
    have hstart : Reached p (labels [] name) (name.take (nameCap - 1)) :=
      ⟨_, .refl, .inl rfl, by rw [hself, htake]⟩
    obtain ⟨c, hreach, hc, hcur⟩ := chase_sound hclear hrrs 8 0xffffffff hstart
    obtain ⟨rfl, rfl⟩ := Prod.mk.inj (Except.ok.inj h)
    intro x hx
    rw [hcur] at hx
    obtain ⟨o, r, hrec, htype, hlen, hlow, hval, httl⟩ := collect_sound hclear hc _ _ hrrs (by simp) x hx
    refine ⟨by omega, by omega, ⟨ls, off, hls, hsame⟩, o, r, hrec, htype, hlen, by rwa [hlow], hval, ?_⟩
    rw [hcur]
    refine Nat.le_trans ?_ httl
    split
    case isTrue hmax =>
      rw [hmax]
      decide
    case isFalse => exact Nat.le_refl _

end Win98Modern.Dns
