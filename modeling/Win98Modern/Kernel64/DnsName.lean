import Mathlib.Data.List.Basic
import Mathlib.Data.List.TakeWhile

/-!
# Domain names

net_dns.c: names in a message and as text.  `NameAt` says which labels stand at an offset, compression
included; `dnsName_sound`: the parser gives their text, `dnsName_ends`: it ends on every message, and
`dnsName_encode`: it gives back the name of a query.
-/

namespace Win98Modern.Dns

open List

abbrev Byte := UInt8
abbrev Text := List Byte

def dot : Byte := 0x2e

def lc (c : Byte) : Byte := if 0x41 ≤ c ∧ c ≤ 0x5a then c + 32 else c

/-- A C string ends at its first zero. -/
def cstr (s : Text) : Text := s.takeWhile (· ≠ 0)

def rd16 (p : List Byte) (i : Nat) : Nat := (p.getD i 0).toNat * 256 + (p.getD (i + 1) 0).toNat
def rd32 (p : List Byte) (i : Nat) : Nat := rd16 p i * 65536 + rd16 p (i + 2)

/-! ### The parser -/

/-- What the parser finds; `stuck` would be a run that does not end. -/
inductive Parsed
  | stuck
  | bad
  | name (text : Text) (next : Nat)
  deriving DecidableEq, Repr

def trim (out : Text) : Text := if out.getLast? = some dot then out.dropLast else out

/-- The loop of `dns_name`; `next` is set by the first pointer. -/
def nameLoop (p : List Byte) (cap : Nat) : Nat → Nat → Nat → Option Nat → Text → Parsed
  | 0, _, _, _, _ => .stuck
  | fuel + 1, off, hops, next, out =>
    match p[off]? with
    | none => .bad
    | some l =>
      if 0xc0 ≤ l.toNat then
        match p[off + 1]? with
        | none => .bad
        | some b =>
          if 16 < hops + 1 then .bad
          else nameLoop p cap fuel (l.toNat % 64 * 256 + b.toNat) (hops + 1) (some (next.getD (off + 2))) out
      else if 0x40 ≤ l.toNat then .bad
      else if l = 0 then if cap ≤ (trim out).length then .bad else .name (trim out) (next.getD (off + 1))
      else if p.length < off + 1 + l.toNat ∨ cap ≤ out.length + l.toNat + 1 then .bad
      else
        nameLoop p cap fuel (off + 1 + l.toNat) hops next
          (out ++ ((p.drop (off + 1)).take l.toNat).map lc ++ [dot])

/-- The size of the buffers for names. -/
def nameCap : Nat := 256

def dnsName (p : List Byte) (off : Nat) : Parsed := nameLoop p nameCap (nameCap + 17) off 0 none []

/-! ### Queries -/

def labels : Text → Text → List Text
  | cur, [] => if cur = [] then [] else [cur]
  | cur, c :: cs => if c = dot then cur :: labels [] cs else labels (cur ++ [c]) cs

def wireLabel (l : Text) : List Byte := UInt8.ofNat l.length :: l

def encodeQuery (id : Nat) (name : Text) : List Byte :=
  [UInt8.ofNat (id / 256), UInt8.ofNat id, 1, 0, 0, 1, 0, 0, 0, 0, 0, 0] ++
    (labels [] name).flatMap wireLabel ++ [0, 0, 1, 0, 1]

def labelsOk : Nat → Text → Bool
  | len, [] => decide (1 ≤ len ∧ len ≤ 63)
  | len, c :: cs => if c = dot then decide (1 ≤ len ∧ len ≤ 63) && labelsOk 0 cs else labelsOk (len + 1) cs

/-- The name that `dns_resolve` asks for, if it accepts the one that it is given. -/
def acceptName (nameIn : Text) : Option Text :=
  let s := cstr nameIn
  if 253 < s.length then none
  else
    let name := trim (s.map lc)
    if name = [] ∨ labelsOk 0 name = false then none else some name

/-! ### The labels of a message -/

/-- These labels stand at an offset, in a field that ends before `next`. -/
inductive NameAt (p : List Byte) : Nat → List Text → Nat → Prop
  | root {off : Nat} (h : p[off]? = some 0) : NameAt p off [] (off + 1)
  | label {off : Nat} {l : Byte} {ls : List Text} {next : Nat} (h : p[off]? = some l) (hpos : l ≠ 0)
      (hlen : l.toNat < 64) (hin : off + 1 + l.toNat ≤ p.length) (hrest : NameAt p (off + 1 + l.toNat) ls next) :
      NameAt p off ((p.drop (off + 1)).take l.toNat :: ls) next
  | pointer {off : Nat} {l b : Byte} {ls : List Text} {next : Nat} (h : p[off]? = some l) (hl : 0xc0 ≤ l.toNat)
      (hb : p[off + 1]? = some b) (hrest : NameAt p (l.toNat % 64 * 256 + b.toNat) ls next) :
      NameAt p off ls (off + 2)

theorem NameAt.unique {p : List Byte} {off next next' : Nat} {ls ls' : List Text} (h : NameAt p off ls next)
    (h' : NameAt p off ls' next') : ls = ls' ∧ next = next' := by
  induction h generalizing ls' next' with
  | root h0 =>
    cases h' with
    | root => exact ⟨rfl, rfl⟩
    | label hl hpos => exact absurd (Option.some.inj (hl.symm.trans h0)) hpos
    | pointer hl hbig =>
      rw [Option.some.inj (hl.symm.trans h0)] at hbig
      exact absurd hbig (by decide)
  | label hl hpos hlen hin hrest ih =>
    cases h' with
    | root h0 => exact absurd (Option.some.inj (hl.symm.trans h0)) hpos
    | label hl' hpos' hlen' hin' hrest' =>
      obtain rfl := Option.some.inj (hl.symm.trans hl')
      obtain ⟨rfl, rfl⟩ := ih hrest'
      exact ⟨rfl, rfl⟩
    | pointer hl' hbig =>
      rw [Option.some.inj (hl'.symm.trans hl)] at hbig
      omega
  | pointer hl hbig hb hrest ih =>
    cases h' with
    | root h0 =>
      rw [Option.some.inj (hl.symm.trans h0)] at hbig
      exact absurd hbig (by decide)
    | label hl' hpos' hlen' =>
      rw [Option.some.inj (hl.symm.trans hl')] at hbig
      omega
    | pointer hl' hbig' hb' hrest' =>
      obtain rfl := Option.some.inj (hl.symm.trans hl')
      obtain rfl := Option.some.inj (hb.symm.trans hb')
      exact ⟨(ih hrest').1, rfl⟩

/-- Names are compared without regard to case. -/
def lower (ls : List Text) : List Text := ls.map (List.map lc)

/-- Each label with a dot behind it. -/
def dotted (ls : List Text) : Text := ls.flatMap fun l => l ++ [dot]

theorem dotted_cons (l : Text) (ls : List Text) : dotted (l :: ls) = l ++ [dot] ++ dotted ls := rfl

def textOf (ls : List Text) : Text := (dotted ls).dropLast

theorem getLast?_dotted {ls : List Text} (h : ls ≠ []) : (dotted ls).getLast? = some dot := by
  induction ls with
  | nil => exact absurd rfl h
  | cons l ls ih =>
    rw [dotted_cons]
    by_cases hls : ls = []
    · subst hls
      simp [dotted]
    · have hlast := ih hls
      have hne : dotted ls ≠ [] := fun he => by
        rw [he] at hlast
        exact nomatch hlast
      rw [List.getLast?_append_of_ne_nil _ hne]
      exact hlast

theorem trim_dotted (ls : List Text) : trim (dotted ls) = textOf ls := by
  rw [trim, textOf]
  cases ls with
  | nil => rfl
  | cons l ls => rw [if_pos (getLast?_dotted (cons_ne_nil _ _))]

variable {p : List Byte} {cap fuel off hops : Nat} {next : Option Nat} {out text : Text} {nx : Nat}

theorem nameLoop_sound (fuel : Nat) : ∀ {off hops : Nat} {next : Option Nat} {out : Text},
    nameLoop p cap fuel off hops next out = .name text nx →
      ∃ ls e, NameAt p off ls e ∧ text = trim (out ++ dotted (lower ls)) ∧ nx = next.getD e ∧ text.length < cap := by
  induction fuel with
  | zero => exact fun h => nomatch h
  | succ fuel ih =>
    intro off hops next out h
    rw [nameLoop] at h
    cases hl : p[off]? with
    | none =>
      rw [hl] at h
      exact nomatch h
    | some l =>
      rw [hl] at h
      dsimp only at h
      split at h
      case isTrue hptr =>
        cases hb : p[off + 1]? with
        | none =>
          rw [hb] at h
          exact nomatch h
        | some b =>
          rw [hb] at h
          dsimp only at h
          split at h
          case isTrue => exact nomatch h
          case isFalse =>
            obtain ⟨ls, e, hat, htext, hnx, hcap⟩ := ih h
            exact ⟨ls, off + 2, .pointer hl hptr hb hat, htext, hnx, hcap⟩
      case isFalse hptr =>
        split at h
        case isTrue => exact nomatch h
        case isFalse hlen =>
          split at h
          case isTrue hzero =>
            subst hzero
            split at h
            case isTrue => exact nomatch h
            case isFalse hcap =>
              obtain ⟨rfl, rfl⟩ := Parsed.name.inj h
              refine ⟨[], off + 1, .root hl, ?_, rfl, by omega⟩
              rw [lower, map_nil, dotted, flatMap_nil, append_nil]
          case isFalse hpos =>
            split at h
            case isTrue => exact nomatch h
            case isFalse hfit =>
              obtain ⟨ls, e, hat, htext, hnx, hcap⟩ := ih h
              refine ⟨_, e, .label hl hpos (by omega) (by omega) hat, ?_, hnx, hcap⟩
              rw [htext]
              simp only [lower, dotted, map_cons, flatMap_cons, append_assoc]

/-- **The parser** gives the text of the labels at an offset. -/
theorem dnsName_sound (h : dnsName p off = .name text nx) :
    ∃ ls, NameAt p off ls nx ∧ text = textOf (lower ls) ∧ text.length < nameCap := by
  obtain ⟨ls, e, hat, htext, hnx, hcap⟩ := nameLoop_sound _ h
  rw [nil_append, trim_dotted] at htext
  exact ⟨ls, by rwa [hnx], htext, hcap⟩

/-- A turn of the loop follows a pointer or fills the buffer. -/
theorem nameLoop_ends (fuel : Nat) : ∀ {off hops : Nat} {next : Option Nat} {out : Text},
    hops ≤ 16 → 16 - hops + (cap - out.length) < fuel → nameLoop p cap fuel off hops next out ≠ .stuck := by
  induction fuel with
  | zero => exact fun _ h => absurd h (Nat.not_lt_zero _)
  | succ fuel ih =>
    intro off hops next out hhops hfuel
    rw [nameLoop]
    cases p[off]? with
    | none => exact nofun
    | some l =>
      dsimp only
      split
      case isTrue =>
        cases p[off + 1]? with
        | none => exact nofun
        | some b =>
          dsimp only
          split
          case isTrue => exact nofun
          case isFalse hh => exact ih (by omega) (by omega)
      case isFalse =>
        split
        case isTrue => exact nofun
        case isFalse =>
          split
          case isTrue => split <;> exact nofun
          case isFalse =>
            split
            case isTrue => exact nofun
            case isFalse hfit =>
              refine ih hhops ?_
              simp only [length_append, length_map, length_take, length_drop, length_singleton]
              omega

/-- **The parser ends** on every message. -/
theorem dnsName_ends (p : List Byte) (off : Nat) : dnsName p off ≠ .stuck := by
  refine nameLoop_ends _ (Nat.zero_le _) ?_
  omega

/-! ### Queries are read back -/

theorem labels_spec (name : Text) : ∀ cur : Text, labelsOk cur.length name = true →
    dotted (labels cur name) = cur ++ name ++ [dot] ∧ ∀ l ∈ labels cur name, 1 ≤ l.length ∧ l.length ≤ 63 := by
  induction name with
  | nil =>
    intro cur h
    have hlen := of_decide_eq_true h
    have hne : cur ≠ [] := fun he => by
      rw [he] at hlen
      exact absurd hlen.1 (by simp)
    rw [labels, if_neg hne]
    refine ⟨by simp [dotted], fun l hl => ?_⟩
    rw [mem_singleton.1 hl]
    exact hlen
  | cons c cs ih =>
    intro cur h
    rw [labelsOk] at h
    rw [labels]
    by_cases hc : c = dot
    · rw [if_pos hc] at h ⊢
      obtain ⟨hlen, hrest⟩ := Bool.and_eq_true_iff.1 h
      obtain ⟨htext, hall⟩ := ih [] hrest
      refine ⟨?_, fun l hl => ?_⟩
      · rw [dotted_cons, htext, hc]
        simp
      · rcases mem_cons.1 hl with rfl | hl
        · exact of_decide_eq_true hlen
        · exact hall l hl
    · rw [if_neg hc] at h ⊢
      have hlen : (cur ++ [c]).length = cur.length + 1 := length_append
      obtain ⟨htext, hall⟩ := ih (cur ++ [c]) (by rwa [hlen])
      exact ⟨by rw [htext]; simp, hall⟩

theorem trim_length (out : Text) : (trim out).length ≤ out.length := by
  rw [trim]
  split
  case isTrue =>
    rw [length_dropLast]
    omega
  case isFalse => exact Nat.le_refl _

theorem trim_subset (out : Text) : trim out ⊆ out := by
  rw [trim]
  split
  case isTrue => exact dropLast_subset _
  case isFalse => exact fun _ h => h

theorem lc_dot : lc dot = dot := by decide

theorem dotted_lower (ls : List Text) : dotted (lower ls) = (dotted ls).map lc := by
  induction ls with
  | nil => rfl
  | cons l ls ih =>
    have hcons : lower (l :: ls) = l.map lc :: lower ls := rfl
    rw [hcons, dotted_cons, dotted_cons, ih, map_append, map_append, map_singleton, lc_dot]

/-- The labels of a name without pointers are read as they stand. -/
theorem nameLoop_wire (cap hops : Nat) (next : Option Nat) (post : List Byte) (ls : List Text) :
    ∀ (pre : List Byte) (out : Text) (fuel : Nat), p = pre ++ ls.flatMap wireLabel ++ 0 :: post →
      (∀ l ∈ ls, 1 ≤ l.length ∧ l.length ≤ 63) → out.length + (dotted ls).length < cap → ls.length < fuel →
        nameLoop p cap fuel pre.length hops next out =
          .name (trim (out ++ dotted (lower ls))) (next.getD (pre.length + (ls.flatMap wireLabel).length + 1)) := by
  induction ls with
  | nil =>
    intro pre out fuel hp _ hcap hfuel
    obtain ⟨fuel, rfl⟩ := Nat.exists_eq_succ_of_ne_zero (Nat.ne_of_gt hfuel)
    have hroot : p[pre.length]? = some 0 := by simp [hp]
    have hlen := trim_length out
    have hfit : ¬cap ≤ (trim out).length := by
      omega
    rw [nameLoop, hroot]
    dsimp only
    rw [if_neg (by decide), if_neg (by decide), if_pos rfl, if_neg hfit]
    simp [dotted, lower]
  | cons l ls ih =>
    intro pre out fuel hp hall hcap hfuel
    obtain ⟨fuel, rfl⟩ := Nat.exists_eq_succ_of_ne_zero (Nat.ne_of_gt (Nat.zero_lt_of_lt hfuel))
    obtain ⟨hpos, hmax⟩ := hall l mem_cons_self
    have hlen : (UInt8.ofNat l.length).toNat = l.length := by
      exact Nat.mod_eq_of_lt (by omega)
    have hne : UInt8.ofNat l.length ≠ 0 := fun he => by
      rw [he] at hlen
      exact absurd hlen (by simp only [UInt8.toNat_zero]; omega)
    have hdotted : (dotted (l :: ls)).length = l.length + 1 + (dotted ls).length := by
      rw [dotted_cons, length_append, length_append, length_singleton]
    have hfirst : p[pre.length]? = some (UInt8.ofNat l.length) := by simp [hp, wireLabel]
    have hpre : p = (pre ++ wireLabel l) ++ ls.flatMap wireLabel ++ 0 :: post := by
      rw [hp, flatMap_cons, append_assoc pre, append_assoc pre, ← append_assoc pre (wireLabel l)]
      simp
    have hlabel : (p.drop (pre.length + 1)).take l.length = l := by
      have happ : p = (pre ++ [UInt8.ofNat l.length]) ++ (l ++ (ls.flatMap wireLabel ++ 0 :: post)) := by
        rw [hp]
        simp [wireLabel]
      have hsz : (pre ++ [UInt8.ofNat l.length]).length = pre.length + 1 := length_append
      rw [happ, ← hsz, drop_left, take_left]
    have hin : ¬(p.length < pre.length + 1 + l.length ∨ cap ≤ out.length + l.length + 1) := by
      rw [hpre]
      simp only [length_append, wireLabel, length_cons]
      omega
    have hoff : pre.length + 1 + l.length = (pre ++ wireLabel l).length := by
      simp only [length_append, wireLabel, length_cons]
      omega
    have hnext := ih (pre ++ wireLabel l) (out ++ l.map lc ++ [dot]) fuel hpre
      (fun m hm => hall m (mem_cons_of_mem _ hm))
      (by simp only [length_append, length_map, length_singleton]; omega)
      (Nat.lt_of_succ_lt_succ hfuel)
    rw [nameLoop, hfirst]
    dsimp only
    rw [hlen, if_neg (by omega), if_neg (by omega), if_neg hne, if_neg hin, hlabel, hoff, hnext]
    have hcons : dotted (lower (l :: ls)) = l.map lc ++ [dot] ++ dotted (lower ls) := rfl
    rw [hcons, flatMap_cons, length_append, length_append, Nat.add_assoc pre.length]
    simp only [append_assoc]

theorem lc_eq_zero {c : Byte} (h : lc c = 0) : c = 0 := by
  have hall : ∀ n < 256, lc (UInt8.ofNat n) = 0 → UInt8.ofNat n = 0 := by decide +kernel
  have hc := hall c.toNat c.toNat_lt
  rw [UInt8.ofNat_toNat] at hc
  exact hc h

theorem lc_idem (c : Byte) : lc (lc c) = lc c := by
  have h : ∀ n < 256, lc (lc (UInt8.ofNat n)) = lc (UInt8.ofNat n) := by decide +kernel
  have hc := h c.toNat c.toNat_lt
  rwa [UInt8.ofNat_toNat] at hc

/-- The names that `dns_resolve` asks for. -/
structure Accepted (name : Text) : Prop where
  ok : labelsOk 0 name = true
  lower : name.map lc = name
  length : name.length ≤ 253
  nonzero : ∀ c ∈ name, c ≠ 0

theorem acceptName_accepted {nameIn name : Text} (h : acceptName nameIn = some name) : Accepted name := by
  rw [acceptName] at h
  split at h
  case isTrue => exact nomatch h
  case isFalse hlen =>
    dsimp only at h
    split at h
    case isTrue => exact nomatch h
    case isFalse hok =>
      obtain rfl := Option.some.inj h
      rw [not_or, Bool.not_eq_false] at hok
      refine ⟨hok.2, ?_, ?_, fun c hc hz => ?_⟩
      · have hmap : ((cstr nameIn).map lc).map lc = (cstr nameIn).map lc := by
          rw [map_map]
          exact map_congr_left fun c _ => lc_idem c
        rw [trim]
        split
        case isTrue => rw [map_dropLast, hmap]
        case isFalse => exact hmap
      · refine Nat.le_trans (trim_length _) ?_
        rw [length_map]
        omega
      · obtain ⟨b, hb, rfl⟩ := mem_map.1 (trim_subset _ hc)
        have hne := mem_takeWhile_imp hb
        rw [lc_eq_zero hz] at hne
        exact absurd hne (by decide)

theorem textOf_labels {name : Text} (h : Accepted name) : textOf (labels [] name) = name := by
  rw [textOf, (labels_spec name [] h.ok).1, nil_append, dropLast_concat]

theorem cstr_eq_self {s : Text} (h : ∀ c ∈ s, c ≠ 0) : cstr s = s :=
  takeWhile_eq_self_iff.2 fun c hc => decide_eq_true (h c hc)

theorem cstr_length (s : Text) : (cstr s).length ≤ s.length := (takeWhile_sublist _).length_le

/-- **The parser inverts `encode_query`** on the names that are accepted. -/
theorem dnsName_encode {name : Text} (h : Accepted name) (id : Nat) :
    dnsName (encodeQuery id name) 12 = .name name (12 + (name.length + 1) + 1) := by
  obtain ⟨htext, hall⟩ := labels_spec name [] h.ok
  rw [nil_append] at htext
  have hsize : ∀ ls : List Text, (ls.flatMap wireLabel).length = (dotted ls).length := by
    intro ls
    induction ls with
    | nil => rfl
    | cons l ls ih =>
      rw [dotted_cons, flatMap_cons, length_append, length_append, ih, length_append, wireLabel,
        length_cons, length_singleton]
  have hcount : ∀ ls : List Text, ls.length ≤ (dotted ls).length := by
    intro ls
    induction ls with
    | nil => exact Nat.le_refl _
    | cons l ls ih =>
      rw [dotted_cons, length_append, length_append, length_cons, length_singleton]
      omega
  have hdotted : (dotted (labels [] name)).length = name.length + 1 := by rw [htext, length_append]; rfl
  have hlen := h.length
  have hn := hcount (labels [] name)
  have hloop := nameLoop_wire (p := encodeQuery id name) nameCap 0 none [0, 1, 0, 1] (labels [] name)
    [UInt8.ofNat (id / 256), UInt8.ofNat id, 1, 0, 0, 1, 0, 0, 0, 0, 0, 0] [] (nameCap + 17) rfl hall
    (by rw [hdotted, length_nil, nameCap]; omega) (by rw [nameCap]; omega)
  have hlow : dotted (lower (labels [] name)) = name ++ [dot] := by
    rw [dotted_lower, htext, map_append, h.lower, map_singleton, lc_dot]
  have htrim : trim (name ++ [dot]) = name := by
    rw [trim, List.getLast?_concat, if_pos rfl, dropLast_concat]
  rw [hlow, nil_append, htrim, hsize, hdotted] at hloop
  exact hloop

end Win98Modern.Dns
