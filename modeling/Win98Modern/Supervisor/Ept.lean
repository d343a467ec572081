import Mathlib.Algebra.Group.Nat.Defs
import Mathlib.Tactic.Common

/-!
# Extended page tables

The tables of one domain and the calls that build them (`ept.c`), over a pool of pages that are
never given back (`pool.c`).  `pd` holds the entries of all page directories, by the bits of the
address above them; `pml4` and `pdpt` say which tables above them have been allocated, and a page
directory that has not been is empty.

`ept_map` is called with access bits only, so a large leaf without them, which `next_level` takes
for an empty entry, does not come up.

`eptMap_spec`: what the loop of `ept_map` does to the translation of each address, also when it fails
on its way.  `ept_calls`: what any calls of `ept_map` and `ept_remap_page` leave of each other.
-/

namespace Win98Modern.Supervisor

open Function

def POOL_PAGES : Nat := 2048
def EPT_R : Nat := 1
def EPT_W : Nat := 2
def EPT_X : Nat := 4
def EPT_RWX : Nat := 7
def EPT_WB : Nat := 48
def EPT_UC : Nat := 0
def EPT_WC : Nat := 8

/-- A page of the last level, of 4 KiB or of 2 MiB. -/
structure Leaf where
  addr : Nat
  perms : Nat
  deriving DecidableEq, Repr

inductive PdEntry
  | empty
  | large (l : Leaf)
  | table (pt : Nat → Option Leaf)

structure Ept where
  pml4 : Nat → Bool
  pdpt : Nat → Bool
  pd : Nat → PdEntry

/-- The index of the address in the tables of a level, and in those above it. -/
def pdKey (gpa : Nat) : Nat := gpa / 0x200000 % 2 ^ 27

def ptIndex (gpa : Nat) : Nat := gpa / 0x1000 % 512

/-- What the processor finds for a guest-physical address: the host address and the permissions. -/
def translate (e : Ept) (gpa : Nat) : Option (Nat × Nat) :=
  match e.pd (pdKey gpa) with
  | .empty => none
  | .large l => some ((l.addr + gpa % 0x200000) % 2 ^ 52, l.perms)
  | .table pt => (pt (ptIndex gpa)).map fun l => ((l.addr + gpa % 0x1000) % 2 ^ 52, l.perms)

def emptyEpt : Ept := ⟨fun _ => false, fun _ => false, fun _ => .empty⟩

/-- `next_level` with `create`, for a table that holds tables. -/
def nextLevel (t : Nat → Bool) (index used : Nat) : (Nat → Bool) × Nat × Bool :=
  if t index then (t, used, true)
  else if used < POOL_PAGES then (update t index true, used + 1, true)
  else (t, used, false)

def eptInit (used : Nat) : Option (Ept × Nat) := if used < POOL_PAGES then some (emptyEpt, used + 1) else none

def walkToPd (e : Ept) (used gpa : Nat) : Ept × Nat × Bool :=
  match nextLevel e.pml4 (gpa / 2 ^ 39 % 512) used with
  | (pml4, used, false) => ({ e with pml4 }, used, false)
  | (pml4, used, true) =>
    let (pdpt, used, ok) := nextLevel e.pdpt (gpa / 2 ^ 30 % 2 ^ 18) used
    ({ e with pml4, pdpt }, used, ok)

def Ept.setPd (e : Ept) (key : Nat) (x : PdEntry) : Ept := { e with pd := update e.pd key x }

/-- The entry of a 4 KiB page, in the table that holds it or in a new one. -/
def mapPage (e : Ept) (used gpa : Nat) (l : Leaf) : Ept × Nat × Bool :=
  match e.pd (pdKey gpa) with
  | .large _ => (e, used, false)
  | .table pt =>
    if (pt (ptIndex gpa)).isSome then (e, used, false)
    else (e.setPd (pdKey gpa) (.table (update pt (ptIndex gpa) (some l))), used, true)
  | .empty =>
    if used < POOL_PAGES then
      (e.setPd (pdKey gpa) (.table (update (fun _ => none) (ptIndex gpa) (some l))), used + 1, true)
    else (e, used, false)

def mapLarge (e : Ept) (gpa : Nat) (l : Leaf) : Ept × Bool :=
  match e.pd (pdKey gpa) with
  | .empty => (e.setPd (pdKey gpa) (.large l), true)
  | _ => (e, false)

/-- The loop of `ept_map`. -/
def eptMapLoop : Nat → Ept → Nat → Nat → Nat → Nat → Nat → Bool → Ept × Nat × Bool
  | 0, e, used, _, _, size, _, _ => (e, used, size = 0)
  | fuel + 1, e, used, gpa, hpa, size, perms, force4k =>
    if size = 0 then (e, used, true)
    else
      match walkToPd e used gpa with
      | (e, used, false) => (e, used, false)
      | (e, used, true) =>
        if force4k = false ∧ gpa % 0x200000 = 0 ∧ hpa % 0x200000 = 0 ∧ 0x200000 ≤ size then
          match mapLarge e gpa ⟨hpa, perms⟩ with
          | (e, false) => (e, used, false)
          | (e, true) =>
            eptMapLoop fuel e used (gpa + 0x200000) (hpa + 0x200000) (size - 0x200000) perms force4k
        else
          match mapPage e used gpa ⟨hpa, perms⟩ with
          | (e, used, false) => (e, used, false)
          | (e, used, true) => eptMapLoop fuel e used (gpa + 0x1000) (hpa + 0x1000) (size - 0x1000) perms force4k

def eptMap (e : Ept) (used gpa hpa size perms : Nat) (force4k : Bool) : Ept × Nat × Bool :=
  if gpa % 0x1000 ≠ 0 ∨ hpa % 0x1000 ≠ 0 ∨ size % 0x1000 ≠ 0 then (e, used, false)
  else eptMapLoop (size / 0x1000) e used gpa hpa size perms force4k

section Spec

variable {e e₁ e₂ : Ept} {used gpa hpa size perms a n : Nat} {l : Leaf}

def target (gpa hpa perms a : Nat) : Nat × Nat := ((hpa + (a - gpa)) % 2 ^ 52, perms)

/-- Addresses of `[gpa, gpa + size)` that were free are mapped, and nothing else changes. -/
def Extends (gpa hpa size perms : Nat) (e e' : Ept) : Prop :=
  ∀ a < 2 ^ 48, translate e' a = translate e a ∨
    gpa ≤ a ∧ a < gpa + size ∧ translate e a = none ∧ translate e' a = some (target gpa hpa perms a)

/-- All of `[gpa, gpa + size)` was free, and is mapped. -/
def Covers (gpa hpa size perms : Nat) (e e' : Ept) : Prop :=
  ∀ a, gpa ≤ a → a < gpa + size → translate e a = none ∧ translate e' a = some (target gpa hpa perms a)

theorem translate_walkToPd : translate (walkToPd e used gpa).1 a = translate e a := by
  unfold walkToPd
  split <;> rfl

theorem pdKey_of_lt (h : a < 2 ^ 48) : pdKey a = a / 0x200000 := Nat.mod_eq_of_lt (by omega)

theorem Extends.refl : Extends gpa hpa size perms e e := fun _ _ => .inl rfl

theorem mapLarge_spec (e : Ept) (hpa perms : Nat) (hg : gpa % 0x200000 = 0) (hlt : gpa + 0x200000 ≤ 2 ^ 48)
    (h : (mapLarge e gpa ⟨hpa, perms⟩).2 = true) :
    Extends gpa hpa 0x200000 perms e (mapLarge e gpa ⟨hpa, perms⟩).1 ∧
      Covers gpa hpa 0x200000 perms e (mapLarge e gpa ⟨hpa, perms⟩).1 := by
  unfold mapLarge at h ⊢
  split at h
  case h_2 => exact nomatch h
  case h_1 hempty =>
    have hcover : Covers gpa hpa 0x200000 perms e (e.setPd (pdKey gpa) (.large ⟨hpa, perms⟩)) := by
      intro a hlo hhi
      have hkey : pdKey a = pdKey gpa := by
        rw [pdKey_of_lt (by omega), pdKey_of_lt (by omega)]
        omega
      unfold translate Ept.setPd
      rw [hkey, hempty]
      dsimp only
      rw [update_self]
      refine ⟨rfl, ?_⟩
      dsimp only [target]
      rw [show a % 0x200000 = a - gpa by omega]
    refine ⟨fun a ha => ?_, hcover⟩
    by_cases hin : gpa ≤ a ∧ a < gpa + 0x200000
    · obtain ⟨hn, hs⟩ := hcover a hin.1 hin.2
      exact .inr ⟨hin.1, hin.2, hn, hs⟩
    · left
      have hkey : pdKey a ≠ pdKey gpa := by
        rw [pdKey_of_lt ha, pdKey_of_lt (by omega)]
        omega
      unfold translate Ept.setPd
      dsimp only
      rw [update_of_ne hkey]

theorem setTable_spec {pt : Nat → Option Leaf} (hg : gpa % 0x1000 = 0) (hlt : gpa + 0x1000 ≤ 2 ^ 48)
    (hold : ∀ a < 2 ^ 48, pdKey a = pdKey gpa → translate e a =
      (pt (ptIndex a)).map fun l => ((l.addr + a % 0x1000) % 2 ^ 52, l.perms))
    (hfree : pt (ptIndex gpa) = none) :
    Extends gpa hpa 0x1000 perms e
        (e.setPd (pdKey gpa) (.table (update pt (ptIndex gpa) (some ⟨hpa, perms⟩)))) ∧
      Covers gpa hpa 0x1000 perms e
        (e.setPd (pdKey gpa) (.table (update pt (ptIndex gpa) (some ⟨hpa, perms⟩)))) := by
  have hcover : Covers gpa hpa 0x1000 perms e
      (e.setPd (pdKey gpa) (.table (update pt (ptIndex gpa) (some ⟨hpa, perms⟩)))) := by
    intro a hlo hhi
    have hkey : pdKey a = pdKey gpa := by
      rw [pdKey_of_lt (by omega), pdKey_of_lt (by omega)]
      omega
    have hidx : ptIndex a = ptIndex gpa := by
      unfold ptIndex
      omega
    refine ⟨?_, ?_⟩
    · rw [hold a (by omega) hkey, hidx, hfree]
      rfl
    · unfold translate Ept.setPd
      rw [hkey]
      dsimp only
      rw [update_self]
      dsimp only
      rw [hidx, update_self]
      dsimp only [Option.map, target]
      rw [show a % 0x1000 = a - gpa by omega]
  refine ⟨fun a ha => ?_, hcover⟩
  by_cases hin : gpa ≤ a ∧ a < gpa + 0x1000
  · obtain ⟨hn, hs⟩ := hcover a hin.1 hin.2
    exact .inr ⟨hin.1, hin.2, hn, hs⟩
  · left
    unfold translate Ept.setPd
    dsimp only
    by_cases hkey : pdKey a = pdKey gpa
    · have hidx : ptIndex a ≠ ptIndex gpa := by
        rw [pdKey_of_lt ha, pdKey_of_lt (by omega)] at hkey
        unfold ptIndex
        omega
      rw [hkey, update_self]
      dsimp only
      rw [update_of_ne hidx, ← hold a ha hkey]
      unfold translate
      rw [hkey]
    · rw [update_of_ne hkey]

theorem mapPage_spec (e : Ept) (used hpa perms : Nat) (hg : gpa % 0x1000 = 0) (hlt : gpa + 0x1000 ≤ 2 ^ 48)
    (h : (mapPage e used gpa ⟨hpa, perms⟩).2.2 = true) :
    Extends gpa hpa 0x1000 perms e (mapPage e used gpa ⟨hpa, perms⟩).1 ∧
      Covers gpa hpa 0x1000 perms e (mapPage e used gpa ⟨hpa, perms⟩).1 := by
  unfold mapPage at h ⊢
  split at h
  case h_1 => exact nomatch h
  case h_2 pt htable =>
    split at h
    case isTrue => exact nomatch h
    case isFalse hfree =>
      rw [if_neg hfree]
      refine setTable_spec hg hlt (fun a _ hkey => ?_) (Option.not_isSome_iff_eq_none.1 hfree)
      unfold translate
      rw [hkey, htable]
  case h_3 hempty =>
    split at h
    case isFalse => exact nomatch h
    case isTrue hpool =>
      rw [if_pos hpool]
      refine setTable_spec hg hlt (fun a _ hkey => ?_) rfl
      unfold translate
      rw [hkey, hempty]
      rfl

theorem Extends.append (h₁ : Extends gpa hpa n perms e e₁)
    (h₂ : Extends (gpa + n) (hpa + n) size perms e₁ e₂) : Extends gpa hpa (n + size) perms e e₂ := by
  intro a ha
  rcases h₂ a ha with he₂ | ⟨hlo, hhi, hn, hs⟩
  · rw [he₂]
    rcases h₁ a ha with h | ⟨hlo, hhi, hn, hs⟩
    · exact .inl h
    · exact .inr ⟨hlo, by omega, hn, hs⟩
  · right
    refine ⟨by omega, by omega, ?_, ?_⟩
    · rcases h₁ a ha with h | ⟨_, _, hold, _⟩
      · exact h.symm.trans hn
      · exact hold
    · rw [hs]
      unfold target
      rw [show hpa + n + (a - (gpa + n)) = hpa + (a - gpa) by omega]

theorem Covers.append (hlt : gpa + n + size ≤ 2 ^ 48) (h₁ : Extends gpa hpa n perms e e₁)
    (hc₁ : Covers gpa hpa n perms e e₁) (h₂ : Extends (gpa + n) (hpa + n) size perms e₁ e₂)
    (hc₂ : Covers (gpa + n) (hpa + n) size perms e₁ e₂) : Covers gpa hpa (n + size) perms e e₂ := by
  intro a hlo hhi
  by_cases ha : a < gpa + n
  · obtain ⟨hn, hs⟩ := hc₁ a hlo ha
    refine ⟨hn, ?_⟩
    rcases h₂ a (by omega) with h | ⟨hlo', _⟩
    · rw [h, hs]
    · omega
  · obtain ⟨hn, hs⟩ := hc₂ a (by omega) (by omega)
    constructor
    · rcases h₁ a (by omega) with h | ⟨_, hhi', _⟩
      · exact h.symm.trans hn
      · omega
    · rw [hs]
      unfold target
      rw [show hpa + n + (a - (gpa + n)) = hpa + (a - gpa) by omega]

end Spec
section Loop

variable {e : Ept} {used gpa hpa size perms : Nat} {force4k : Bool}

theorem Extends.of_translate {e' e'' : Ept} (h : Extends gpa hpa size perms e' e'')
    (he : ∀ a, translate e' a = translate e a) : Extends gpa hpa size perms e e'' := by
  intro a ha
  rw [← he a]
  exact h a ha

theorem Covers.of_translate {e' e'' : Ept} (h : Covers gpa hpa size perms e' e'')
    (he : ∀ a, translate e' a = translate e a) : Covers gpa hpa size perms e e'' := by
  intro a hlo hhi
  rw [← he a]
  exact h a hlo hhi

/-- Each turn maps what it can and leaves the rest to the next; the range that was passed is mapped. -/
theorem eptMapLoop_spec (fuel : Nat) : ∀ (e : Ept) (used gpa hpa size : Nat),
    gpa % 0x1000 = 0 → size % 0x1000 = 0 → gpa + size ≤ 2 ^ 48 →
      Extends gpa hpa size perms e (eptMapLoop fuel e used gpa hpa size perms force4k).1 ∧
        ((eptMapLoop fuel e used gpa hpa size perms force4k).2.2 = true →
          Covers gpa hpa size perms e (eptMapLoop fuel e used gpa hpa size perms force4k).1) := by
  induction fuel with
  | zero =>
    intro e used gpa hpa size _ _ _
    refine ⟨.refl, fun h a hlo hhi => ?_⟩
    have hz : size = 0 := of_decide_eq_true h
    omega
  | succ fuel ih =>
    intro e used gpa hpa size hg hs hlt
    rw [eptMapLoop]
    split
    case isTrue hz => exact ⟨.refl, fun _ a hlo hhi => by omega⟩
    case isFalse hz =>
      have hwalk : ∀ a, translate (walkToPd e used gpa).1 a = translate e a := fun a => translate_walkToPd
      rcases hw : walkToPd e used gpa with ⟨e₁, used₁, ok⟩
      rw [hw] at hwalk
      cases ok with
      | false => exact ⟨Extends.refl.of_translate hwalk, nofun⟩
      | true =>
        dsimp only
        split
        case isTrue hlarge =>
          obtain ⟨_, hg2, _, hsz⟩ := hlarge
          have hspec := mapLarge_spec e₁ hpa perms hg2 (by omega)
          rcases hm : mapLarge e₁ gpa ⟨hpa, perms⟩ with ⟨e₂, ok⟩
          rw [hm] at hspec
          cases ok with
          | false =>
            have he₂ : e₂ = e₁ := by
              unfold mapLarge at hm
              split at hm
              · exact nomatch hm
              · exact (congrArg Prod.fst hm).symm
            rw [he₂]
            exact ⟨Extends.refl.of_translate hwalk, nofun⟩
          | true =>
            obtain ⟨hext, hcov⟩ := hspec rfl
            obtain ⟨hext', hcov'⟩ := ih e₂ used₁ (gpa + 0x200000)
              (hpa + 0x200000) (size - 0x200000) (by omega) (by omega) (by omega)
            have hsum : 0x200000 + (size - 0x200000) = size := by omega
            constructor
            · have h := (hext.append hext').of_translate hwalk
              rwa [hsum] at h
            · intro h
              have h := (Covers.append (by omega) hext hcov hext' (hcov' h)).of_translate hwalk
              rwa [hsum] at h
        case isFalse =>
          have hspec := mapPage_spec e₁ used₁ hpa perms hg (by omega)
          rcases hm : mapPage e₁ used₁ gpa ⟨hpa, perms⟩ with ⟨e₂, used₂, ok⟩
          rw [hm] at hspec
          cases ok with
          | false =>
            have he₂ : e₂ = e₁ := by
              unfold mapPage at hm
              split at hm
              · exact (congrArg Prod.fst hm).symm
              · split at hm
                · exact (congrArg Prod.fst hm).symm
                · exact nomatch hm
              · split at hm
                · exact nomatch hm
                · exact (congrArg Prod.fst hm).symm
            rw [he₂]
            exact ⟨Extends.refl.of_translate hwalk, nofun⟩
          | true =>
            obtain ⟨hext, hcov⟩ := hspec rfl
            obtain ⟨hext', hcov'⟩ := ih e₂ used₂ (gpa + 0x1000)
              (hpa + 0x1000) (size - 0x1000) (by omega) (by omega) (by omega)
            have hsum : 0x1000 + (size - 0x1000) = size := by omega
            constructor
            · have h := (hext.append hext').of_translate hwalk
              rwa [hsum] at h
            · intro h
              have h := (Covers.append (by omega) hext hcov hext' (hcov' h)).of_translate hwalk
              rwa [hsum] at h

/-- **What `ept_map` does.**  If it fails, a part of the range may be mapped. -/
theorem eptMap_spec (e : Ept) (used hpa perms : Nat) (force4k : Bool) (hlt : gpa + size ≤ 2 ^ 48) :
    Extends gpa hpa size perms e (eptMap e used gpa hpa size perms force4k).1 ∧
      ((eptMap e used gpa hpa size perms force4k).2.2 = true →
        Covers gpa hpa size perms e (eptMap e used gpa hpa size perms force4k).1) := by
  unfold eptMap
  split
  case isTrue => exact ⟨.refl, nofun⟩
  case isFalse h =>
    obtain ⟨hg, h⟩ := not_or.1 h
    exact eptMapLoop_spec _ e used gpa hpa size (not_not.1 hg) (not_not.1 (not_or.1 h).2) hlt

end Loop

/-! ### Replacing a page -/

/-- The table below an entry, and whether it has to be allocated: a page of 2 MiB is split. -/
def PdEntry.entries : PdEntry → (Nat → Option Leaf) × Bool
  | .empty => (fun _ => none, true)
  | .large l =>
    (fun i => if l.perms &&& EPT_RWX = 0 then none else some ⟨l.addr + i * 0x1000, l.perms⟩, true)
  | .table pt => (pt, false)

def eptRemapPage (e : Ept) (used gpa hpa perms : Nat) : Ept × Nat × Bool :=
  match walkToPd e used gpa with
  | (e, used, false) => (e, used, false)
  | (e, used, true) =>
    let (pt, fresh) := (e.pd (pdKey gpa)).entries
    if fresh ∧ POOL_PAGES ≤ used then (e, used, false)
    else
      let leaf := if hpa = 0 ∧ perms = 0 then none else some ⟨hpa, perms⟩
      (e.setPd (pdKey gpa) (.table (update pt (ptIndex gpa) leaf)), if fresh then used + 1 else used, true)

inductive EptCall
  | map (gpa hpa size perms : Nat) (force4k : Bool)
  | remapPage (gpa hpa perms : Nat)
  deriving DecidableEq

/-- The tables and the pages of the pool in use after a call, and whether it returned 0. -/
def eptStep (s : Ept × Nat) : EptCall → Ept × Nat × Bool
  | .map gpa hpa size perms force4k => eptMap s.1 s.2 gpa hpa size perms force4k
  | .remapPage gpa hpa perms => eptRemapPage s.1 s.2 gpa hpa perms

def eptRun (s : Ept × Nat) (calls : List EptCall) : Ept × Nat :=
  calls.foldl (fun s c => ((eptStep s c).1, (eptStep s c).2.1)) s

def usable (x : Nat × Nat) : Bool := x.2 &&& EPT_RWX ≠ 0

/-- What the guest can access at an address. -/
def access (e : Ept) (gpa : Nat) : Option (Nat × Nat) := (translate e gpa).filter usable

/-- What a call asks for at an address. -/
def EptCall.asks (a : Nat) : EptCall → Option (Nat × Nat)
  | .map gpa hpa size perms _ => if gpa ≤ a ∧ a < gpa + size then some (target gpa hpa perms a) else none
  | .remapPage gpa hpa perms => if gpa ≤ a ∧ a < gpa + 0x1000 then some (target gpa hpa perms a) else none

/-- Also a call that fails on the way counts as a remap of its page. -/
def EptCall.Remaps (a : Nat) : EptCall → Prop
  | .map .. => False
  | .remapPage gpa _ _ => gpa ≤ a ∧ a < gpa + 0x1000

/-- What the callers see to: 48 bits of address, whole pages, and the bits of a leaf. -/
def EptCall.Within : EptCall → Prop
  | .map gpa _ size perms _ => gpa + size ≤ 2 ^ 48 ∧ perms < 0x80 ∧ perms &&& EPT_RWX ≠ 0
  | .remapPage gpa hpa perms => gpa % 0x1000 = 0 ∧ gpa < 2 ^ 48 ∧ hpa % 0x1000 = 0 ∧ perms < 0x80

section Calls

open List

variable {e : Ept} {used gpa hpa perms a : Nat} {c : EptCall} {s : Ept × Nat} {x : Nat × Nat}

theorem access_eq (e : Ept) (a : Nat) : access e a = (((e.pd (pdKey a)).entries.1 (ptIndex a)).map
    fun l => ((l.addr + a % 0x1000) % 2 ^ 52, l.perms)).filter usable := by
  rw [access, translate]
  cases e.pd (pdKey a) with
  | empty => rfl
  | table pt => rfl
  | large l =>
    have hsum : l.addr + ptIndex a * 0x1000 + a % 0x1000 = l.addr + a % 0x200000 := by
      rw [ptIndex]
      omega
    by_cases hp : l.perms &&& EPT_RWX = 0
    · simp [PdEntry.entries, usable, hp]
    · simp [PdEntry.entries, hp, hsum]

theorem access_remapPage (hg : gpa % 0x1000 = 0) (hlt : gpa < 2 ^ 48) (ha : a < 2 ^ 48) :
    access (eptRemapPage e used gpa hpa perms).1 a =
      if (eptRemapPage e used gpa hpa perms).2.2 = true ∧ gpa ≤ a ∧ a < gpa + 0x1000 then
        (some (target gpa hpa perms a)).filter usable
      else access e a := by
  have hwalk : access (walkToPd e used gpa).1 a = access e a :=
    congrArg (Option.filter usable) translate_walkToPd
  rw [← hwalk, eptRemapPage]
  rcases walkToPd e used gpa with ⟨e₁, used₁, ok⟩
  cases ok with
  | false => simp
  | true =>
    dsimp only
    split
    · simp
    · rw [access_eq, access_eq e₁, Ept.setPd]
      dsimp only
      by_cases hkey : pdKey a = pdKey gpa
      · rw [hkey, update_self, PdEntry.entries]
        dsimp only
        rw [pdKey_of_lt ha, pdKey_of_lt hlt] at hkey
        by_cases hidx : ptIndex a = ptIndex gpa
        · rw [hidx, update_self]
          rw [ptIndex, ptIndex] at hidx
          have hpage : true = true ∧ gpa ≤ a ∧ a < gpa + 0x1000 := ⟨rfl, by omega⟩
          rw [if_pos hpage, target, show a - gpa = a % 0x1000 by omega]
          split
          · rename_i hz
            rw [hz.2]
            exact (Option.filter_some_neg (by simp [usable])).symm
          · rfl
        · rw [update_of_ne hidx, if_neg]
          rw [ptIndex, ptIndex] at hidx
          omega
      · rw [update_of_ne hkey, if_neg]
        rw [pdKey_of_lt ha, pdKey_of_lt hlt] at hkey
        omega

theorem eptStep_cases (s : Ept × Nat) (hc : c.Within) (ha : a < 2 ^ 48) :
    access (eptStep s c).1 a = access s.1 a ∧ ((eptStep s c).2.2 = true → c.asks a = none) ∨
      ∃ x, c.asks a = some x ∧ access (eptStep s c).1 a = (some x).filter usable ∧
        (c.Remaps a ∨ access s.1 a = none) := by
  cases c with
  | map gpa hpa size perms force4k =>
    have hspec := eptMap_spec s.1 s.2 hpa perms force4k hc.1
    rw [EptCall.asks, eptStep]
    obtain h | ⟨hlo, hhi, hn, h⟩ := hspec.1 a ha
    · refine .inl ⟨congrArg (Option.filter usable) h, fun hok => if_neg fun hin => ?_⟩
      obtain ⟨hn, hs⟩ := hspec.2 hok a hin.1 hin.2
      rw [h, hn] at hs
      cases hs
    · refine .inr ⟨_, if_pos ⟨hlo, hhi⟩, congrArg (Option.filter usable) h, .inr ?_⟩
      rw [access, hn]
      rfl
  | remapPage gpa hpa perms =>
    rw [EptCall.asks, eptStep, access_remapPage hc.1 hc.2.1 ha]
    split
    · rename_i h
      exact .inr ⟨_, if_pos h.2, rfl, .inl h.2⟩
    · rename_i h
      exact .inl ⟨rfl, fun hok => if_neg fun hin => h ⟨hok, hin⟩⟩

theorem eptRun_kept (s : Ept × Nat) (calls : List EptCall) (h : ∀ c ∈ calls, c.Within) (ha : a < 2 ^ 48)
    (hno : ∀ c ∈ calls, ¬c.Remaps a) (hx : access s.1 a = some x) : access (eptRun s calls).1 a = some x := by
  induction calls generalizing s with
  | nil => exact hx
  | cons c calls ih =>
    obtain ⟨hc, h⟩ := forall_mem_cons.1 h
    obtain ⟨hnoc, hno⟩ := forall_mem_cons.1 hno
    refine ih _ h hno ?_
    obtain ⟨heq, -⟩ | ⟨-, -, -, hr | hn⟩ := eptStep_cases s hc ha
    · exact heq.trans hx
    · exact absurd hr hnoc
    · rw [hn] at hx
      cases hx

theorem eptRun_asked (s : Ept × Nat) (calls : List EptCall) (h : ∀ c ∈ calls, c.Within) (ha : a < 2 ^ 48)
    (hx : access (eptRun s calls).1 a = some x) :
    access s.1 a = some x ∨ ∃ c ∈ calls, c.asks a = some x := by
  induction calls generalizing s with
  | nil => exact .inl hx
  | cons c calls ih =>
    obtain ⟨hc, h⟩ := forall_mem_cons.1 h
    obtain hx | ⟨c', hc', hx⟩ := ih _ h hx
    · obtain ⟨heq, -⟩ | ⟨y, hy, heq, -⟩ := eptStep_cases s hc ha
      · exact .inl (heq.symm.trans hx)
      · rw [heq] at hx
        rw [← (Option.filter_eq_some_iff.1 hx).1]
        exact .inr ⟨c, mem_cons_self, hy⟩
    · exact .inr ⟨c', mem_cons_of_mem c hc', hx⟩

/-- **What the guest can access** after calls in any order, some of which may fail: what it could access
before and nobody remapped, nothing that no call asked for, and what a call that returned 0 asked for
until its page is remapped. -/
theorem ept_calls (s : Ept × Nat) (calls : List EptCall) (h : ∀ c ∈ calls, c.Within) {a : Nat} (ha : a < 2 ^ 48) :
    (∀ x, access s.1 a = some x → (∀ c ∈ calls, ¬c.Remaps a) → access (eptRun s calls).1 a = some x) ∧
    (∀ x, access (eptRun s calls).1 a = some x → access s.1 a = some x ∨ ∃ c ∈ calls, c.asks a = some x) ∧
    ∀ pre c post, calls = pre ++ c :: post → (eptStep (eptRun s pre) c).2.2 = true →
      (∀ c' ∈ post, ¬c'.Remaps a) → ∀ x, c.asks a = some x → usable x → access (eptRun s calls).1 a = some x := by
  refine ⟨fun x hx hno => eptRun_kept s calls h ha hno hx, fun x hx => eptRun_asked s calls h ha hx, ?_⟩
  rintro pre c post rfl hok hno x hask hx
  rw [eptRun, foldl_append]
  refine eptRun_kept _ post (fun c' hc' => h c' (by simp [hc'])) ha hno ?_
  obtain ⟨-, hn⟩ | ⟨y, hy, heq, -⟩ := eptStep_cases (eptRun s pre) (h c (by simp)) ha
  · rw [hn hok] at hask
    cases hask
  · obtain rfl : x = y := Option.some.inj (hask.symm.trans hy)
    exact heq.trans (Option.filter_eq_some_iff.2 ⟨rfl, hx⟩)

/-- A page of 2 MiB, one of whose pages is replaced; then a call for pages that are mapped fails. -/
def splitCalls : List EptCall :=
  [.map 0 0 0x200000 (EPT_RWX ||| EPT_WB) false, .remapPage 0x1000 0x5000 EPT_R,
    .map 0x1ff000 0 0x2000 EPT_RWX true]

theorem ept_calls_split : access (eptRun (emptyEpt, 1) splitCalls).1 0x2000 = some (0x2000, 55) ∧
    access (eptRun (emptyEpt, 1) splitCalls).1 0x1000 = some (0x5000, 1) := by
  have hw : ∀ c ∈ splitCalls, c.Within := by
    simp [splitCalls, EptCall.Within, EPT_RWX, EPT_WB, EPT_R]
  constructor
  · refine (ept_calls _ _ hw (by decide)).2.2 [] _ _ rfl (by decide +kernel) ?_ _ rfl rfl
    simp [EptCall.Remaps]
  · refine (ept_calls _ _ hw (by decide)).2.2 [_] _ _ rfl (by decide +kernel) ?_ _ rfl rfl
    simp [EptCall.Remaps]

end Calls

end Win98Modern.Supervisor
