import Win98Modern.Kernel64.DnsAnswer
import Win98Modern.Lib.Runs

/-!
# The resolver over runs

`dns_answers_belong`: what lookups return belongs to the name, server and port that they were asked for,
where names have their own texts and no answer for a longer name is cached under the name of a lookup.
-/

namespace Win98Modern.Dns

open List

def Justified (s : System) (name : Text) (server port x ttl : Nat) : Prop :=
  ∃ d ∈ s.received, d.server = server ∧ d.port = port ∧ Belongs d.data d.pending (labels [] name) x ttl

def FromCache (s : System) (r : Return) : Prop :=
  ∃ put ∈ s.puts, put.name = r.name ∧ put.server = r.server ∧ put.port = r.port ∧ r.time < expiry put.time put.ttl ∧
    ((∃ e, r.result = .error e ∧ put.neg = some e) ∨
      ∃ xs, r.result = .ok xs ∧ ∀ x ∈ xs, x ∈ put.addr ∧ Justified s put.name put.server put.port x put.ttl)

structure Right (s : System) (r : Return) : Prop where
  address : r.source ≠ .here → ∀ xs, r.result = .ok xs → ∀ x ∈ xs, Justified s r.name r.server r.port x 0
  cached : r.source = .cache → FromCache s r

/-- No answer that is still stored is one for a longer name with this beginning, and a response that is
taken has no two names with one text. -/
def Meets (s : System) : Event → Prop
  | .call nameIn server port _ dns _ _ _ _ =>
    ∀ put ∈ s.puts, (put.server, put.port) = System.target server port dns → s.now < expiry put.time put.ttl →
      entName < put.name.length → acceptName nameIn ≠ some (put.name.take entName)
  | .datagram k src sport data _ _ _ =>
    ∀ l, s.lookups[k]? = some l → src = l.server → sport = l.port → Clear (data.take System.respSize) (labels [] l.name)
  | _ => True

variable {s s' : System} {l : Lookup} {name : Text} {server port x ttl random now : Nat} {e : Ent}
  {cache : List (Option Ent)}

structure Stored (e : Ent) (put : Put) : Prop where
  name : e.name = put.name.take entName
  server : e.server = put.server
  port : e.port = put.port
  addr : e.addr = put.addr
  neg : e.neg = put.neg
  expires : e.expires = expiry put.time put.ttl

theorem cacheFind_spec (h : cacheFind cache now name server port = some e) :
    some e ∈ cache ∧ now < e.expires ∧ e.server = server ∧ e.port = port ∧ e.name = name := by
  obtain ⟨o, ho, hf⟩ := exists_of_findSome?_eq_some h
  obtain ⟨rfl, hcond⟩ := Option.filter_eq_some_iff.1 hf
  obtain ⟨hnow, hfor⟩ := Bool.and_eq_true_iff.1 hcond
  obtain ⟨hsp, hname⟩ := Bool.and_eq_true_iff.1 hfor
  obtain ⟨hserver, hport⟩ := Bool.and_eq_true_iff.1 hsp
  exact ⟨ho, of_decide_eq_true hnow, beq_iff_eq.1 hserver, beq_iff_eq.1 hport, beq_iff_eq.1 hname⟩

/-! ### The invariant -/

structure Inv (s : System) : Prop where
  cache : ∀ e, some e ∈ s.cache → ∃ put ∈ s.puts, Stored e put
  puts : ∀ put ∈ s.puts, ∀ x ∈ put.addr, Justified s put.name put.server put.port x put.ttl
  lookups : ∀ l ∈ s.lookups, Accepted l.name
  returns : ∀ r ∈ s.returns, Right s r

/-- What has happened stays so. -/
structure Ext (s s' : System) : Prop where
  received : s.received ⊆ s'.received
  puts : s.puts ⊆ s'.puts

theorem Justified.mono (h : Justified s name server port x ttl) (he : Ext s s') :
    Justified s' name server port x ttl := by
  obtain ⟨d, hd, hrest⟩ := h
  exact ⟨d, he.received hd, hrest⟩

theorem Justified.any (h : Justified s name server port x ttl) : Justified s name server port x 0 := by
  obtain ⟨d, hd, hserver, hport, hid, hqr, hq, owner, r, hrec, htype, hlen, hreach, hx, -⟩ := h
  exact ⟨d, hd, hserver, hport, hid, hqr, hq, owner, r, hrec, htype, hlen, hreach, hx, Nat.zero_le _⟩

theorem Right.mono {r : Return} (h : Right s r) (he : Ext s s') : Right s' r where
  address hs xs hr x hx := (h.address hs xs hr x hx).mono he
  cached hs := by
    obtain ⟨put, hp, hname, hserver, hport, htime, hres⟩ := h.cached hs
    refine ⟨put, he.puts hp, hname, hserver, hport, htime, ?_⟩
    rcases hres with herr | ⟨xs, hok, hall⟩
    · exact .inl herr
    · exact .inr ⟨xs, hok, fun x hx => ⟨(hall x hx).1, (hall x hx).2.mono he⟩⟩

theorem Inv.ext (h : Inv s) (hcache : s'.cache = s.cache) (hputs : s'.puts = s.puts)
    (hreceived : s.received ⊆ s'.received) (hlookups : ∀ l ∈ s'.lookups, Accepted l.name)
    (hreturns : ∀ r ∈ s'.returns, r ∈ s.returns ∨ Right s' r) : Inv s' := by
  have he : Ext s s' := ⟨hreceived, fun put hp => hputs ▸ hp⟩
  refine ⟨?_, ?_, hlookups, fun r hr => ?_⟩
  · rw [hcache, hputs]
    exact h.cache
  · rw [hputs]
    exact fun put hp x hx => (h.puts put hp x hx).mono he
  · rcases hreturns r hr with hold | hnew
    · exact (h.returns r hold).mono he
    · exact hnew

variable {result : Except Err (List Nat)} {max id k : Nat} {sent : Option Err}

theorem Inv.give {source : Source} (h : Inv s)
    (hr : Right s ⟨name, server, port, result, source, s.now⟩) :
    Inv (s.give name server port result source) := by
  refine h.ext rfl rfl (fun _ hd => hd) h.lookups fun r hr' => ?_
  rcases mem_append.1 hr' with hold | hnew
  · exact .inl hold
  · rw [mem_singleton.1 hnew]
    exact .inr (hr.mono ⟨fun _ hd => hd, fun _ hp => hp⟩)

theorem Inv.put {addr : List Nat} {neg : Option Err} (h : Inv s)
    (ha : ∀ x ∈ addr, Justified s name server port x ttl) : Inv (s.put name server port addr neg ttl random) := by
  have he : Ext s (s.put name server port addr neg ttl random) := ⟨fun _ hd => hd, subset_append_left _ _⟩
  refine ⟨fun e hmem => ?_, fun put hp x hx => ?_, h.lookups, fun r hr => (h.returns r hr).mono he⟩
  · rcases mem_or_eq_of_mem_set hmem with hold | hnew
    · obtain ⟨put, hp, hst⟩ := h.cache e hold
      exact ⟨put, he.puts hp, hst⟩
    · obtain rfl := Option.some.inj hnew
      exact ⟨_, mem_append_right _ (mem_singleton.2 rfl), rfl, rfl, rfl, rfl, rfl, rfl⟩
  · rcases mem_append.1 hp with hold | hnew
    · exact (h.puts put hold x hx).mono he
    · rw [mem_singleton.1 hnew] at hx ⊢
      exact (ha x hx).mono he

/-! ### Steps -/

theorem Inv.finish {st : Except Err (List Nat × Nat)} (h : Inv s)
    (hst : ∀ addr ttl, st = .ok (addr, ttl) → ∀ x ∈ addr, Justified s l.name l.server l.port x ttl) :
    Inv (s.finish l st random) := by
  cases st with
  | ok r =>
    obtain ⟨addr, ttl⟩ := r
    have ha := hst addr ttl rfl
    refine (h.put ha).give ⟨fun _ xs hxs x hx => ?_, nofun⟩
    rw [← Except.ok.inj hxs] at hx
    exact (ha x (mem_of_mem_take hx)).any.mono ⟨fun _ hd => hd, subset_append_left _ _⟩
  | error e =>
    rw [System.finish]
    split
    case isTrue => exact (h.put (fun x hx => absurd hx not_mem_nil)).give ⟨nofun, nofun⟩
    case isFalse => exact h.give ⟨nofun, nofun⟩

theorem Inv.query (h : Inv s) (hl : Accepted l.name) (attempt id : Nat) (sent : Option Err) :
    Inv (s.query l attempt id sent random) := by
  cases sent with
  | none =>
    refine h.ext rfl rfl (fun _ hd => hd) (fun l' hl' => ?_) fun r hr => .inl hr
    rcases mem_append.1 hl' with hold | hnew
    · exact h.lookups l' hold
    · rw [mem_singleton.1 hnew]
      exact hl
  | some e =>
    have hend : Inv (s.finish l (.error e) random) := h.finish nofun
    exact hend

theorem Inv.retry (h : Inv s) (hl : Accepted l.name) (id : Nat) (sent : Option Err) :
    Inv (s.retry l id sent random) := by
  rw [System.retry]
  split
  case isTrue => exact h.query hl _ _ _
  case isFalse => exact h.finish nofun

theorem Inv.here (h : Inv s) : Inv (s.give name server port result .here) :=
  h.give ⟨fun hne => absurd rfl hne, nofun⟩

/-- **A hit in the cache** is an answer for the name, unless a longer name was stored under it. -/
theorem Inv.hit (h : Inv s) (hfind : cacheFind s.cache s.now name server port = some e)
    (hlong : ∀ put ∈ s.puts, put.server = server → put.port = port → s.now < expiry put.time put.ttl →
      entName < put.name.length → name ≠ put.name.take entName) :
    Inv (s.give name server port (match e.neg with
      | some err => .error err
      | none => .ok (e.addr.take max)) .cache) := by
  obtain ⟨hmem, hnow, hserver, hport, hname⟩ := cacheFind_spec hfind
  obtain ⟨put, hput, hst⟩ := h.cache e hmem
  have hexp : s.now < expiry put.time put.ttl := hst.expires ▸ hnow
  have hsame : put.name = name := by
    have hstored : name = put.name.take entName := hname.symm.trans hst.name
    by_cases hlen : entName < put.name.length
    · exact absurd hstored (hlong put hput (hst.server.symm.trans hserver) (hst.port.symm.trans hport) hexp hlen)
    · rw [hstored, take_of_length_le (Nat.not_lt.1 hlen)]
  have hps : put.server = server := hst.server.symm.trans hserver
  have hpp : put.port = port := hst.port.symm.trans hport
  cases hneg : e.neg with
  | some err =>
    refine h.give ⟨fun _ => nofun, fun _ => ⟨put, hput, hsame, hps, hpp, hexp, .inl ⟨err, rfl, ?_⟩⟩⟩
    rw [← hst.neg, hneg]
  | none =>
    have hall : ∀ x ∈ e.addr.take max, x ∈ put.addr ∧ Justified s put.name put.server put.port x put.ttl := by
      intro x hx
      have hx' : x ∈ put.addr := hst.addr ▸ mem_of_mem_take hx
      exact ⟨hx', h.puts put hput x hx'⟩
    refine h.give ⟨fun _ xs hxs x hx => ?_, fun _ => ⟨put, hput, hsame, hps, hpp, hexp, .inr ⟨_, rfl, hall⟩⟩⟩
    rw [← Except.ok.inj hxs] at hx
    have hj := (hall x hx).2.any
    rwa [hsame, hps, hpp] at hj

theorem Inv.call {nameIn : Text} {dns : Nat} {socket : Bool} (h : Inv s)
    (hm : Meets s (.call nameIn server port max dns socket id sent random)) :
    Inv (s.call nameIn server port max dns socket id sent random) := by
  rw [System.call]
  cases hacc : acceptName nameIn with
  | none => exact h.here
  | some name =>
    dsimp only
    split
    case isTrue => exact h.here
    case isFalse =>
      split
      case h_1 => exact h.here
      case h_2 =>
        split
        case isTrue => exact h.here
        case isFalse =>
          cases hfind : cacheFind s.cache s.now name (System.target server port dns).1 (System.target server port dns).2 with
          | some e =>
            refine h.hit hfind fun put hput hps hpp hexp hlen hname => ?_
            refine hm put hput ?_ hexp hlen ?_
            · rw [hps, hpp]
            · rw [hacc, hname]
          | none =>
            dsimp only
            split
            case isTrue => exact h.here
            case isFalse => exact h.query (acceptName_accepted hacc) _ _ _

theorem Inv.erase (h : Inv s) (k : Nat) : Inv { s with lookups := s.lookups.eraseIdx k } :=
  h.ext rfl rfl (fun _ hd => hd) (fun l hl => h.lookups l (mem_of_mem_eraseIdx hl)) fun _ hr => .inl hr

theorem Inv.datagram {src sport : Nat} {data : List Byte} (h : Inv s) (hk : s.lookups[k]? = some l)
    (hm : Meets s (.datagram k src sport data id sent random)) :
    Inv (s.datagram k l src sport data id sent random) := by
  have hl : Accepted l.name := h.lookups l (mem_of_getElem? hk)
  rw [System.datagram]
  have hrec : Inv { s with received := s.received ++ [⟨src, sport, l.id, data.take System.respSize⟩] } :=
    h.ext rfl rfl (subset_append_left _ _) h.lookups fun _ hr => .inl hr
  split
  case isTrue => exact hrec
  case isFalse htaken =>
    rw [not_or, not_or, not_or] at htaken
    have hsrc := not_not.1 htaken.1
    have hsport := not_not.1 htaken.2.1
    have hclear := hm l hk hsrc hsport
    have herase := hrec.erase k
    cases hparse : parseResponse (data.take System.respSize) l.id l.name with
    | error e =>
      cases e with
      | tryAgain => exact herase.retry hl _ _
      | _ => exact herase.finish nofun
    | ok r =>
      refine herase.finish fun addr ttl hok x hx => ?_
      refine ⟨⟨src, sport, l.id, data.take System.respSize⟩, mem_append_right _ (mem_singleton.2 rfl), hsrc,
        hsport, ?_⟩
      rw [Except.ok.inj hok] at hparse
      exact parseResponse_sound hl hclear hparse x hx

theorem Inv.recvError {rs : Err} (h : Inv s) (hk : s.lookups[k]? = some l) :
    Inv (s.recvError k l rs id sent random) := by
  have hl : Accepted l.name := h.lookups l (mem_of_getElem? hk)
  rw [System.recvError]
  split
  case isTrue => exact (h.erase k).retry hl _ _
  case isFalse =>
    split
    case isTrue => exact (h.erase k).finish nofun
    case isFalse => exact (h.erase k).finish nofun

theorem Inv.step (h : Inv s) (ev : Event) (hm : Meets s ev) : Inv (s.step ev) := by
  cases ev with
  | tick ms => exact h.ext rfl rfl (fun _ hd => hd) h.lookups fun _ hr => .inl hr
  | flush =>
    refine ⟨fun e he => ?_, h.puts, h.lookups, fun r hr => (h.returns r hr).mono ⟨fun _ hd => hd, fun _ hp => hp⟩⟩
    exact nomatch eq_of_mem_replicate he
  | call nameIn server port max dns socket id sent random => exact h.call hm
  | datagram k src sport data id sent random =>
    rw [System.step]
    cases hk : s.lookups[k]? with
    | none => exact h
    | some l => exact h.datagram hk hm
  | recvError k rs id sent random =>
    rw [System.step]
    cases hk : s.lookups[k]? with
    | none => exact h
    | some l => exact h.recvError hk

theorem inv_init : Inv System.init where
  cache _ he := nomatch eq_of_mem_replicate he
  puts _ hp := absurd hp not_mem_nil
  lookups _ hl := absurd hl not_mem_nil
  returns _ hr := absurd hr not_mem_nil

/-- **DNS answers belong to the question**: in every run where the names have their own texts, also in the
cache, and the parser ends on every message and inverts `encode_query`. -/
theorem dns_answers_belong (evs : List Event) (hrun : Steps System.step Meets System.init evs) :
    Along System.step (fun s => ∀ r ∈ s.returns, Right s r) (fun _ _ => True) System.init evs ∧
      (∀ p off, dnsName p off ≠ .stuck) ∧
        ∀ nameIn name id, acceptName nameIn = some name →
          dnsName (encodeQuery id name) 12 = .name name (12 + (name.length + 1) + 1) := by
  refine ⟨?_, dnsName_ends, fun nameIn name id h => dnsName_encode (acceptName_accepted h) id⟩
  exact along_of_inv evs (fun s h => h.returns) (fun s ev h _ hm => ⟨trivial, h.step ev hm⟩) inv_init hrun

/-! ### Two runs -/

/-- The header of a response with one question and one answer. -/
def header : List Byte := [0, 7, 0x81, 0x80, 0, 1, 0, 1, 0, 0, 0, 0]

/-- An A record for the name of the question. -/
def record : List Byte := [0xc0, 0x0c, 0, 1, 0, 1, 0, 0, 0, 60, 0, 4, 10, 0, 0, 1]

/-- The response with an address for a name. -/
def answerFor (name : Text) : List Byte := header ++ (encodeQuery 7 name).drop 12 ++ record

/-- A lookup of one name, its answer, and a lookup of another name. -/
def lookups (first second : Text) : List Event :=
  [.call first 1 53 8 0 true 7 none 0, .datagram 0 1 53 (answerFor first) 8 none 0,
    .call second 1 53 8 0 true 9 none 0]

theorem answer_clear : Clear ((answerFor [0x61]).take System.respSize) (labels [] [0x61]) := by
  have hquestion : NameAt ((answerFor [0x61]).take System.respSize) 12 [[0x61]] 15 :=
    .label (l := 1) rfl (by decide) (by decide) (by decide) (.root rfl)
  have howner : NameAt ((answerFor [0x61]).take System.respSize) 19 [[0x61]] 21 :=
    .pointer (l := 0xc0) (b := 0x0c) rfl (by decide) rfl hquestion
  have hat : ∀ {i off}, i < 1 → AnswerAt ((answerFor [0x61]).take System.respSize) i off → off = 19 := by
    intro i off hi h
    cases h with
    | first hname => rw [(hname.unique hquestion).2]
    | next => omega
  have hname : ∀ a, IsName ((answerFor [0x61]).take System.respSize) (labels [] [0x61]) a → a = [[0x61]] := by
    rintro a (rfl | ⟨off, ls, next, hfield, hls, rfl⟩)
    · rfl
    · rcases hfield with rfl | ⟨i, hi, hoff⟩ | ⟨owner, r, ⟨i, next', hi, hoff, hr, heq, -⟩, htype, -⟩
      · rw [(hls.unique hquestion).1]
        rfl
      · rw [hat hi hoff] at hls
        rw [(hls.unique howner).1]
        rfl
      · have htype' : rd16 ((answerFor [0x61]).take System.respSize) next' = CNAME := by
          rw [heq] at htype
          exact htype
        rw [hat hi hoff] at hr
        rw [(hr.unique howner).2] at htype'
        exact absurd htype' (by decide)
  intro a b ha hb _
  rw [hname a ha, hname b hb]

theorem dns_answers_belong_sample :
    Along System.step (fun s => ∀ r ∈ s.returns, Right s r) (fun _ _ => True) System.init
      (lookups [0x61] [0x61]) := by
  refine (dns_answers_belong (lookups [0x61] [0x61]) ⟨trivial, ?_, trivial, ?_, trivial, ?_, trivial⟩).1
  · exact fun put hput => absurd hput not_mem_nil
  · intro l hl _ _
    obtain rfl := Option.some.inj hl
    exact answer_clear
  · intro put hput _ _ hlen
    obtain rfl := mem_singleton.1 hput
    exact absurd hlen (by decide)

def longName : Text :=
  List.replicate 63 0x61 ++ [dot] ++ List.replicate 61 0x62 ++ [dot] ++ [0x63, 0x63]

/-- A response whose question is the single label `a.b`. -/
def dottedAnswer : List Byte := header ++ [3, 0x61, dot, 0x62, 0, 0, 1, 0, 1] ++ record

/-- The answer for a long name is given for its first 127 letters, and that for one label with a dot in it
for two labels. -/
theorem names_confused : (¬∀ r ∈ ((lookups longName (longName.take entName)).foldl System.step System.init).returns,
    Right ((lookups longName (longName.take entName)).foldl System.step System.init) r) ∧
      parseResponse dottedAnswer 7 [0x61, dot, 0x62] = .ok ([0x0a000001], 60) ∧
        ¬Belongs dottedAnswer 7 (labels [] [0x61, dot, 0x62]) 0x0a000001 60 := by
  refine ⟨fun hall => ?_, by decide +kernel, fun hbelongs => ?_⟩
  · have hreturn : ((((lookups longName (longName.take entName)).foldl System.step System.init).returns[1]?).map
        fun r => (r.name, r.source)) = some (longName.take entName, .cache) := by decide +kernel
    have hputs : ((lookups longName (longName.take entName)).foldl System.step System.init).puts.map (·.name) =
        [longName] := by decide +kernel
    obtain ⟨r, hr, hpair⟩ := Option.map_eq_some_iff.1 hreturn
    obtain ⟨hname, hsource⟩ := Prod.mk.inj hpair
    obtain ⟨put, hput, hput', -⟩ := (hall r (mem_of_getElem? hr)).cached hsource
    have hmem := mem_map_of_mem (f := (·.name)) hput
    rw [hputs, mem_singleton, hput', hname] at hmem
    exact absurd (congrArg List.length hmem) (by decide +kernel)
  · obtain ⟨-, -, ⟨ls, next, hls, hlow⟩, -⟩ := hbelongs
    have hone : NameAt dottedAnswer 12 [[0x61, dot, 0x62]] 17 :=
      .label (l := 3) rfl (by decide) (by decide) (by decide) (.root rfl)
    rw [(hls.unique hone).1] at hlow
    exact absurd hlow (by decide)

end Win98Modern.Dns
