import Tessera.Proofs.Allotment

/-!
# Objects at the end of the address space

Addresses are words, and a memory does not count beyond them: an object that would start or
end at `2 ^ 64` or behind it, if addresses were unbounded, stands at the low 64 bits of its
address. Only the origin stops it: a block that would lie before the origin is refused. So
the objects of a run stand one behind the other exactly as long as none of them overruns
the address space, and the first one that does starts before its predecessor's end or ends
before its own start.

* `Ascending`: objects that stand one behind the other, from some address on.
* `Request.Overruns`, `Memory.Contained`: an object that overruns the address space, and runs
  without one.
* `Request.call_iff`, `Request.call_exact`: when a request is answered, and with what;
  `Request.call_refuses`: what else comes of it.
* `served_ascending`, `served_contained`: a run by its first request.
* `run_ascending`: whole runs from an empty memory.
-/

namespace Tessera

/-- Objects that stand one behind the other: they start at `first` or behind it, none ends before
it starts, and each starts where those before it have ended. -/
structure Ascending (first : Nat) (objects : List Placed) : Prop where
  start : ∀ o ∈ objects, first ≤ o.physical.toNat
  stop : ∀ o ∈ objects, o.physical.toNat ≤ o.stop.toNat
  order : objects.Pairwise fun o o' => o.stop.toNat ≤ o'.physical.toNat

instance (first : Nat) (objects : List Placed) : Decidable (Ascending first objects) :=
  decidable_of_iff ((∀ o ∈ objects, first ≤ o.physical.toNat) ∧
      (∀ o ∈ objects, o.physical.toNat ≤ o.stop.toNat) ∧
      objects.Pairwise fun o o' => o.stop.toNat ≤ o'.physical.toNat)
    ⟨fun h => ⟨h.1, h.2.1, h.2.2⟩, fun h => ⟨h.start, h.stop, h.order⟩⟩

namespace Ascending

variable {first : Nat} {o : Placed} {objects : List Placed}

theorem nil : Ascending first [] :=
  ⟨fun _ h => absurd h List.not_mem_nil, fun _ h => absurd h List.not_mem_nil, .nil⟩

/-- Objects stand one behind the other if the first of them does and the others stand behind it. -/
theorem cons_iff : Ascending first (o :: objects) ↔
    (first ≤ o.physical.toNat ∧ o.physical.toNat ≤ o.stop.toNat) ∧
      Ascending o.stop.toNat objects := by
  constructor
  · intro h
    obtain ⟨hstart, -⟩ := List.forall_mem_cons.1 h.start
    obtain ⟨hstop, hstops⟩ := List.forall_mem_cons.1 h.stop
    obtain ⟨hbehind, horder⟩ := List.pairwise_cons.1 h.order
    exact ⟨⟨hstart, hstop⟩, hbehind, hstops, horder⟩
  · rintro ⟨⟨hstart, hstop⟩, hrest⟩
    refine ⟨List.forall_mem_cons.2 ⟨hstart, fun o' ho' => ?_⟩,
      List.forall_mem_cons.2 ⟨hstop, hrest.stop⟩, .cons hrest.start hrest.order⟩
    exact hstart.trans (hstop.trans (hrest.start o' ho'))

end Ascending

/-- The object of a request would end beyond the words if addresses were unbounded. -/
def Request.Overruns (q : Request) (m : Memory) : Prop :=
  ∃ page, q.start m.origin.toNat (m.divisor q.region).toNat m.cursor.toNat = some page ∧
    18446744073709551616 ≤ page + q.bytes

/-- No request of a run is answered with an object that overruns the words. -/
def Memory.Contained (m : Memory) (qs : List Request) : Prop :=
  ∀ (before after : List Request) (q : Request) (o : Placed), qs = before ++ q :: after →
    (q.call (m.serveAll before)).1 = .ok o → ¬q.Overruns (m.serveAll before)

theorem Memory.contained_cons {m : Memory} {q : Request} {qs : List Request} :
    m.Contained (q :: qs) ↔
      (∀ o, (q.call m).1 = .ok o → ¬q.Overruns m) ∧ (m.serve q).Contained qs := by
  constructor
  · intro h
    exact ⟨fun o ho => h [] qs q o rfl ho, fun before after q' o heq ho =>
      h (q :: before) after q' o (by rw [heq]; rfl) ho⟩
  · rintro ⟨hhead, hrest⟩ before after q' o heq ho
    cases before with
    | nil =>
      obtain ⟨rfl, rfl⟩ := List.cons.inj heq
      exact hhead o ho
    | cons q₀ before =>
      obtain ⟨rfl, rfl⟩ := List.cons.inj heq
      exact hrest before after q' o rfl ho

section Blocks

variable {m : Memory} {r : Region} {address : Nat}

/-- When the blocks of an object have logical addresses. -/
theorem Memory.blockAddresses_iff {name : String} {sizes : List Nat} {acc : Array BlockAddress}
    {i : Nat} (hpos : 0 < (m.divisor r).toNat)
    (hdvd : (m.divisor r).toNat ∣ 18446744073709551616) (hle : m.origin.toNat ≤ address) :
    (∃ out, m.blockAddresses name r acc i (UInt64.ofNat address) (sizes.map Int.ofNat) = .ok out) ↔
      ∀ n < sizes.length,
        m.origin.toNat ≤ (address + (sizes.take n).sum) % 18446744073709551616 ∧
          (m.divisor r).toNat ∣ address + (sizes.take n).sum - m.origin.toNat := by
  induction sizes generalizing acc i address with
  | nil => simp [blockAddresses]
  | cons size sizes ih =>
    -- the first block, and those that follow it
    have hsplit : (∀ n < (size :: sizes).length,
        m.origin.toNat ≤ (address + ((size :: sizes).take n).sum) % 18446744073709551616 ∧
          (m.divisor r).toNat ∣ address + ((size :: sizes).take n).sum - m.origin.toNat) ↔
        (m.origin.toNat ≤ address % 18446744073709551616 ∧
          (m.divisor r).toNat ∣ address - m.origin.toNat) ∧
        ∀ n < sizes.length,
          m.origin.toNat ≤ (address + size + (sizes.take n).sum) % 18446744073709551616 ∧
            (m.divisor r).toNat ∣ address + size + (sizes.take n).sum - m.origin.toNat := by
      rw [List.length_cons, Nat.forall_lt_succ_left]
      simp only [List.take_zero, List.sum_nil, Nat.add_zero, List.take_succ_cons, List.sum_cons,
        Nat.add_assoc]
    rw [hsplit, List.map_cons, blockAddresses, ← logical_iff s!"{name}[{i}]" hpos hdvd hle]
    cases hl : m.logical s!"{name}[{i}]" r (UInt64.ofNat address) with
    | error e => simp
    | ok l =>
      simp only [Except.ok.injEq, exists_eq', true_and, Int.ofNat_eq_natCast]
      rw [ofInt_natCast64, ← UInt64.ofNat_add]
      exact ih (by omega)

end Blocks

namespace Request

variable {m : Memory} {q : Request} {o : Placed} {free page : Nat}

/-- The page of a request, as the memory finds it. -/
theorem findPage_start (hm : m.Free free)
    (hstart : q.start m.origin.toNat (m.divisor q.region).toNat free = some page) :
    m.findPage q.name q.region = .ok (UInt64.ofNat page) := by
  obtain ⟨hpos, hdvd⟩ := hm.units q.region
  exact (Memory.findPage_ofNat hpos hdvd hm.cursor hm.origin).2
    ⟨page, (start_eq_some.1 hstart).2, rfl⟩

/-- **When a request is answered** that has a page among unbounded addresses: neither the page nor
any of its blocks lies before the origin once only the low 64 bits of the addresses are kept. -/
theorem call_iff (hm : m.Free free)
    (hstart : q.start m.origin.toNat (m.divisor q.region).toNat free = some page) :
    (∃ o, (q.call m).1 = .ok o) ↔
      ∀ off ∈ 0 :: q.offsets, m.origin.toNat ≤ (page + off) % 18446744073709551616 := by
  obtain ⟨hpos, hdvd⟩ := hm.units q.region
  obtain ⟨hfree, -, hunit⟩ := start_page hstart
  obtain ⟨hoffsets, -⟩ := start_eq_some.1 hstart
  have hle : m.origin.toNat ≤ page := hm.origin.trans hfree
  have hpage := findPage_start hm hstart
  have hlogical := Memory.logical_iff q.name hpos hdvd hle
  simp only [hunit, and_true] at hlogical
  rw [List.forall_mem_cons, Nat.add_zero, ← hlogical, call_eq, Memory.commit_fst]
  cases q with
  | reserve name r size =>
    have hobject : (∃ o, (reserve name r size).object m = .ok o) ↔
        ∃ l, m.logical name r (UInt64.ofNat page) = .ok l := by
      simp only [object, Memory.plain, Outcome.bind_eq_ok]
      constructor
      · rintro ⟨o, p, hp, l, hl, -⟩
        obtain rfl := Except.ok.inj (hpage.symm.trans hp)
        exact ⟨l, hl⟩
      · rintro ⟨l, hl⟩
        exact ⟨_, _, hpage, l, hl, rfl⟩
    exact hobject.trans ⟨fun h => ⟨h, fun off hoff => by cases hoff⟩, fun h => h.1⟩
  | place name r sizes =>
    have hobject : (∃ o, (place name r sizes).object m = .ok o) ↔
        (∃ l, m.logical name r (UInt64.ofNat page) = .ok l) ∧
          ∃ out, m.blockAddresses name r #[] 0 (UInt64.ofNat page) (sizes.map Int.ofNat) = .ok out := by
      simp only [object, Memory.blocked, Outcome.bind_eq_ok]
      constructor
      · rintro ⟨o, p, hp, l, hl, out, hout, -⟩
        obtain rfl := Except.ok.inj (hpage.symm.trans hp)
        exact ⟨⟨l, hl⟩, out, hout⟩
      · rintro ⟨⟨l, hl⟩, out, hout⟩
        exact ⟨_, _, hpage, l, hl, out, hout, rfl⟩
    refine hobject.trans (and_congr_right fun _ =>
      (Memory.blockAddresses_iff hpos hdvd hle).trans ⟨fun h off hoff => ?_, fun h n hn => ?_⟩)
    · obtain ⟨n, hn, rfl⟩ := mem_offsets_place.1 hoff
      exact (h n hn).1
    · have hoff : (sizes.take n).sum ∈ (place name r sizes).offsets := mem_offsets_place.2 ⟨n, hn, rfl⟩
      refine ⟨h _ hoff, ?_⟩
      rw [Nat.sub_add_comm hle]
      exact Nat.dvd_add hunit (hoffsets _ hoff)

/-- **What a request is answered with**: the object that it would get if addresses were unbounded,
but only the low 64 bits of where it starts and ends. -/
theorem call_exact (hm : m.Free free) (h : (q.call m).1 = .ok o) :
    ∃ page, q.start m.origin.toNat (m.divisor q.region).toNat free = some page ∧
      o.physical = UInt64.ofNat page ∧ o.stop = UInt64.ofNat (page + q.bytes) := by
  cases hstart : q.start m.origin.toNat (m.divisor q.region).toNat free with
  | none =>
    obtain ⟨e, he⟩ := call_none hm hstart
    rw [he] at h
    cases h
  | some page =>
    have hpage := findPage_start hm hstart
    refine ⟨page, rfl, ?_⟩
    rw [call_eq, Memory.commit_fst] at h
    cases q with
    | reserve name r size =>
      simp only [object, Memory.plain, Outcome.bind_eq_ok, Outcome.pure_eq_ok] at h
      obtain ⟨p, hp, l, -, rfl⟩ := h
      obtain rfl := Except.ok.inj (hpage.symm.trans hp)
      refine ⟨rfl, ?_⟩
      show UInt64.ofNat page + UInt64.ofInt (size : Int) = UInt64.ofNat (page + size)
      rw [ofInt_natCast64, UInt64.ofNat_add]
    | place name r sizes =>
      simp only [object, Memory.blocked, Outcome.bind_eq_ok, Outcome.pure_eq_ok] at h
      obtain ⟨p, hp, l, -, out, hout, rfl⟩ := h
      obtain rfl := Except.ok.inj (hpage.symm.trans hp)
      refine ⟨rfl, ?_⟩
      show UInt64.ofNat page + (out.2 - UInt64.ofNat page) = UInt64.ofNat (page + sizes.sum)
      rw [(Memory.blockAddresses_eq_ok hout).1, UInt64.add_comm, UInt64.sub_add_cancel,
        UInt64.ofNat_add]

/-- A page is less than the whole address space behind the first free byte. -/
theorem start_near
    (hstart : q.start m.origin.toNat (m.divisor q.region).toNat free = some page) :
    page < free + 18446744073709551616 := by
  obtain ⟨-, hfind⟩ := start_eq_some.1 hstart
  obtain ⟨j, hj, rfl⟩ := List.mem_map.1 (List.mem_of_find?_eq_some hfind)
  have hj := List.mem_range.1 hj
  have hlt := (m.divisor q.region).toNat_lt
  norm_num at hlt
  omega

end Request

namespace Memory

variable {m : Memory} {qs : List Request}

/-- A memory that hands out addresses in order: transfer units divide the address space, and the
cursor has not fallen behind the origin. -/
def InOrder (m : Memory) : Prop := m.Free m.cursor.toNat

/-- A request that does not overrun the words gets an object behind the cursor, and the memory stays
in order. -/
theorem call_contained {q : Request} {o : Placed} (hm : m.InOrder) (h : (q.call m).1 = .ok o)
    (hfits : ¬q.Overruns m) :
    m.cursor.toNat ≤ o.physical.toNat ∧ o.physical.toNat ≤ o.stop.toNat ∧ (m.add o).InOrder := by
  obtain ⟨page, hstart, hphysical, hstop⟩ := Request.call_exact hm h
  have hend : page + q.bytes < 18446744073709551616 := by
    by_contra hover
    exact hfits ⟨page, hstart, by omega⟩
  have hfree := (Request.start_page hstart).1
  have hphys : o.physical.toNat = page := by
    rw [hphysical, UInt64.toNat_ofNat_of_lt' (by norm_num [UInt64.size]; omega)]
  have hstop' : o.stop.toNat = page + q.bytes := by
    rw [hstop, UInt64.toNat_ofNat_of_lt' (by norm_num [UInt64.size]; omega)]
  refine ⟨by omega, by omega, (UInt64.ofNat_toNat).symm, ?_, hm.units⟩
  have horigin := hm.origin
  show m.origin.toNat ≤ o.stop.toNat
  omega

/-- **The first object that overruns the words** starts before the cursor or ends before it
starts. -/
theorem call_overruns {q : Request} {o : Placed} (hm : m.InOrder) (h : (q.call m).1 = .ok o)
    (hover : q.Overruns m) (hbytes : q.bytes < 18446744073709551616) :
    o.physical.toNat < m.cursor.toNat ∨ o.stop.toNat < o.physical.toNat := by
  obtain ⟨page, hstart, hend⟩ := hover
  obtain ⟨page', hstart', hphysical, hstop⟩ := Request.call_exact hm h
  obtain rfl := Option.some.inj (hstart.symm.trans hstart')
  have hnear := Request.start_near hstart
  rw [hphysical, hstop, UInt64.toNat_ofNat', UInt64.toNat_ofNat']
  norm_num
  omega

/-- **Without an overrun** the objects of a run stand one behind the other. -/
theorem served_ascending (hm : m.InOrder) (hfits : m.Contained qs) :
    Ascending m.cursor.toNat ((m.served qs).map Prod.snd) := by
  induction qs generalizing m with
  | nil => exact .nil
  | cons q qs ih =>
    obtain ⟨hhead, hrest⟩ := contained_cons.1 hfits
    unfold served
    obtain ⟨e, hcall⟩ | ⟨o, hcall⟩ := Request.call_cases m q
    · rw [serve, hcall] at hrest
      simp only [hcall]
      exact ih hm hrest
    · rw [serve, hcall] at hrest
      have ho : (q.call m).1 = .ok o := by rw [hcall]
      obtain ⟨hstart, hstop, hm'⟩ := call_contained hm ho (hhead o ho)
      simp only [hcall]
      exact Ascending.cons_iff.2 ⟨⟨hstart, hstop⟩, ih hm' hrest⟩

/-- **Objects that stand one behind the other** do not overrun. -/
theorem served_contained (hm : m.InOrder) (hbytes : ∀ q ∈ qs, q.bytes < 18446744073709551616)
    (h : Ascending m.cursor.toNat ((m.served qs).map Prod.snd)) : m.Contained qs := by
  induction qs generalizing m with
  | nil =>
    intro before after q a heq
    cases before <;> cases heq
  | cons q qs ih =>
    obtain ⟨hq, hqs⟩ := List.forall_mem_cons.1 hbytes
    unfold served at h
    rw [contained_cons, serve]
    obtain ⟨e, hcall⟩ | ⟨o, hcall⟩ := Request.call_cases m q
    · simp only [hcall] at h ⊢
      exact ⟨fun o ho => (by cases ho), ih hm hqs h⟩
    · have ho : (q.call m).1 = .ok o := by rw [hcall]
      simp only [hcall] at h ⊢
      obtain ⟨⟨hstart, hstop⟩, hrest⟩ := Ascending.cons_iff.1 h
      have hfits : ¬q.Overruns m := fun hover => by
        have hwrapped := call_overruns hm ho hover hq
        dsimp only at hstart hstop
        omega
      obtain ⟨-, -, hm'⟩ := call_contained hm ho hfits
      exact ⟨fun _ _ => hfits, ih hm' hqs hrest⟩

/-- As long as its objects stand one behind the other, a memory stays in order. -/
theorem serveAll_inOrder (hm : m.InOrder)
    (h : Ascending m.cursor.toNat ((m.served qs).map Prod.snd)) : (m.serveAll qs).InOrder := by
  induction qs generalizing m with
  | nil => exact hm
  | cons q qs ih =>
    unfold served at h
    show ((m.serve q).serveAll qs).InOrder
    rw [serve]
    obtain ⟨e, hcall⟩ | ⟨o, hcall⟩ := Request.call_cases m q
    · simp only [hcall] at h ⊢
      exact ih hm h
    · simp only [hcall] at h ⊢
      obtain ⟨⟨hstart, hstop⟩, hrest⟩ := Ascending.cons_iff.1 h
      refine ih ⟨(UInt64.ofNat_toNat).symm, ?_, hm.units⟩ hrest
      exact hm.origin.trans (hstart.trans hstop)

end Memory

section Refusals

variable {m : Memory} {r : Region}

/-- The diagnosis that an address is misaligned. -/
def Misaligned (d : Detail) : Prop := ∃ a, d = .addressMisaligned a

theorem Memory.onUnit_total (hpos : 0 < (m.divisor r).toNat) (physical : UInt64) :
    ∃ isOn, m.onUnit r physical = .ok isOn :=
  ⟨_, if_neg (divisor_ne_zero hpos)⟩

theorem Memory.logical_refuses (hpos : 0 < (m.divisor r).toNat) (object : String)
    (physical : UInt64) : (m.logical object r physical).OnlyRefuses Misaligned := by
  obtain ⟨isOn, hon⟩ := onUnit_total hpos physical
  unfold logical
  simp only [hon, Outcome.ok_bind]
  split
  · exact .diagnose object ⟨_, rfl⟩
  split
  · exact .of_ok rfl
  · exact .diagnose object ⟨_, rfl⟩

theorem Memory.searchPage_total (hpos : 0 < (m.divisor r).toNat) (tries : Nat)
    (physical : UInt64) : ∃ found, m.searchPage r tries physical = .ok found := by
  induction tries generalizing physical with
  | zero => exact ⟨none, rfl⟩
  | succ tries ih =>
    obtain ⟨isOn, hon⟩ := onUnit_total hpos physical
    rw [searchPage, hon]
    cases isOn with
    | true => exact ⟨_, rfl⟩
    | false => exact ih (physical + pageSize)

theorem Memory.findPage_refuses (hpos : 0 < (m.divisor r).toNat) (object : String) :
    (m.findPage object r).OnlyRefuses Misaligned := by
  obtain ⟨found, hfound⟩ := searchPage_total hpos (max 1 (m.divisor r / pageSize)).toNat
    (alignUp m.cursor pageSize)
  unfold findPage
  simp only [hfound, Outcome.ok_bind]
  cases found with
  | some page => exact .of_ok rfl
  | none => exact .diagnose object ⟨_, rfl⟩

theorem Memory.blockAddresses_refuses (hpos : 0 < (m.divisor r).toNat) (name : String)
    (acc : Array BlockAddress) (i : Nat) (physical : UInt64) (sizes : List Int) :
    (m.blockAddresses name r acc i physical sizes).OnlyRefuses Misaligned := by
  induction sizes generalizing acc i physical with
  | nil => exact .of_ok rfl
  | cons size sizes ih =>
    have hlogical := logical_refuses hpos s!"{name}[{i}]" physical
    unfold blockAddresses
    cases hl : m.logical s!"{name}[{i}]" r physical with
    | ok l => exact ih _ _ _
    | error e =>
      rintro e' ⟨⟩
      exact hlogical e hl

/-- **A request that fails** is refused because some address is misaligned. -/
theorem Request.call_refuses (hunits : ∀ r, 0 < (m.divisor r).toNat) (q : Request) :
    (q.call m).1.OnlyRefuses Misaligned := by
  rw [call_eq, Memory.commit_fst]
  cases q with
  | reserve name r size =>
    refine (Memory.findPage_refuses (hunits r) name).bind fun page _ => ?_
    exact (Memory.logical_refuses (hunits r) name page).bind fun _ _ => .of_ok rfl
  | place name r sizes =>
    refine (Memory.findPage_refuses (hunits r) name).bind fun page _ => ?_
    refine (Memory.logical_refuses (hunits r) name page).bind fun _ _ => ?_
    exact (Memory.blockAddresses_refuses (hunits r) name _ _ page _).bind fun _ _ => .of_ok rfl

end Refusals

section Run

variable {c : Config} {base origin : UInt64} {divisors : Divisors}

/-- Requests leave the origin and the transfer units of a memory alone. -/
theorem Memory.serveAll_frame (m : Memory) (qs : List Request) :
    (m.serveAll qs).origin = m.origin ∧ (m.serveAll qs).divisors = m.divisors := by
  induction qs generalizing m with
  | nil => exact ⟨rfl, rfl⟩
  | cons q qs ih =>
    have hserve : (m.serve q).origin = m.origin ∧ (m.serve q).divisors = m.divisors := by
      unfold serve
      obtain ⟨e, hcall⟩ | ⟨o, hcall⟩ := Request.call_cases m q <;> rw [hcall] <;> exact ⟨rfl, rfl⟩
    obtain ⟨horigin, hdivisors⟩ := ih (m.serve q)
    exact ⟨horigin.trans hserve.1, hdivisors.trans hserve.2⟩

/-- An empty memory is in order. -/
theorem empty_inOrder (base origin : UInt64) (hvalid : c.validate = .ok ())
    (hd : c.divisors = .ok divisors) :
    (Memory.empty base origin divisors).InOrder ∧
      (Memory.empty base origin divisors).cursor.toNat = max base.toNat origin.toNat := by
  have hfree : (Memory.empty base origin divisors).Free (max base.toNat origin.toNat) :=
    empty_free hvalid hd
  have hcursor : (Memory.empty base origin divisors).cursor.toNat =
      max base.toNat origin.toNat := by
    rw [hfree.cursor, UInt64.toNat_ofNat_of_lt' (max_lt base.toNat_lt origin.toNat_lt)]
  refine ⟨?_, hcursor⟩
  unfold Memory.InOrder
  rwa [hcursor]

/-- **Whole runs, up to the end of the address space and beyond.** From an empty memory on, every
request gets an object or the diagnosis that an address is misaligned. If no object overruns the
words, the objects stand one behind the other from the base and the origin on; and only then, if
every request asks for less than the whole address space. While they do, a request is answered
exactly if it has a page and the low 64 bits of no address of its blocks lie before the origin, with
the low 64 bits of where its object starts and ends. -/
theorem run_ascending (hvalid : c.validate = .ok ()) (hd : c.divisors = .ok divisors)
    (qs : List Request) :
    (∀ (before after : List Request) (q : Request), qs = before ++ q :: after →
      (q.call ((Memory.empty base origin divisors).serveAll before)).1.OnlyRefuses Misaligned) ∧
    ((Memory.empty base origin divisors).Contained qs →
      Ascending (max base.toNat origin.toNat)
        ((Memory.empty base origin divisors).serveAll qs).objects) ∧
    ((∀ q ∈ qs, q.bytes < 18446744073709551616) →
      Ascending (max base.toNat origin.toNat)
        ((Memory.empty base origin divisors).serveAll qs).objects →
      (Memory.empty base origin divisors).Contained qs) ∧
    ∀ (before after : List Request) (q : Request) (m : Memory), qs = before ++ q :: after →
      m = (Memory.empty base origin divisors).serveAll before →
      Ascending (max base.toNat origin.toNat) m.objects →
        ((∃ o, (q.call m).1 = .ok o) ↔ ∃ page,
          q.start origin.toNat (q.region.divisor divisors).toNat m.cursor.toNat = some page ∧
            ∀ off ∈ 0 :: q.offsets, origin.toNat ≤ (page + off) % 18446744073709551616) ∧
        ∀ o : Placed, (q.call m).1 = .ok o → ∃ page,
          q.start origin.toNat (q.region.divisor divisors).toNat m.cursor.toNat = some page ∧
            o.physical = UInt64.ofNat page ∧ o.stop = UInt64.ofNat (page + q.bytes) := by
  obtain ⟨hinOrder, hcursor⟩ := empty_inOrder base origin hvalid hd
  -- an empty memory has no objects, so all objects of a run are handed out in it
  have hobjects : ∀ qs, ((Memory.empty base origin divisors).serveAll qs).objects =
      ((Memory.empty base origin divisors).served qs).map Prod.snd := Memory.objects_serveAll _
  refine ⟨fun before after q _ => Request.call_refuses (fun r => ?_) q, fun hfits => ?_,
    fun hbytes h => ?_, ?_⟩
  · have hframe := (Memory.serveAll_frame (Memory.empty base origin divisors) before).2
    unfold Memory.divisor
    rw [hframe]
    exact (hinOrder.units r).1
  · rw [hobjects, ← hcursor]
    exact Memory.served_ascending hinOrder hfits
  · rw [hobjects, ← hcursor] at h
    exact Memory.served_contained hinOrder hbytes h
  · rintro before after q m - hm h
    have hframe := Memory.serveAll_frame (Memory.empty base origin divisors) before
    have horder : m.InOrder := by
      rw [hm, hobjects, ← hcursor] at h
      rw [hm]
      exact Memory.serveAll_inOrder hinOrder h
    rw [← hm] at hframe
    obtain ⟨rfl, rfl⟩ : m.origin = origin ∧ m.divisors = divisors := hframe
    refine ⟨⟨fun ⟨o, ho⟩ => ?_, fun ⟨page, hstart, hoff⟩ =>
      (Request.call_iff horder hstart).2 hoff⟩, fun o ho => Request.call_exact horder ho⟩
    obtain ⟨page, hstart, -⟩ := Request.call_exact horder ho
    exact ⟨page, hstart, (Request.call_iff horder hstart).1 ⟨o, ho⟩⟩

/-- Requests that take up the last page of the address space. -/
def lastRun : List Request :=
  [.place "WGT" .wgt [8192], .reserve "UOP" .uop 4080]

/-- The last object ends sixteen bytes before the end of the address space; one more would start
behind it, at the address zero, which the origin refuses. -/
theorem lastRun_ascending : Config.wideWeights.validate = .ok () ∧
    Config.wideWeights.divisors = .ok ⟨64, 8192, 256, 64, 4, 16⟩ ∧
    ((Memory.empty 18446744073709535232 4096 ⟨64, 8192, 256, 64, 4, 16⟩).serveAll
        lastRun).objects.map (fun o => (o.name, o.physical, o.stop)) =
      [("WGT", 18446744073709539328, 18446744073709547520),
        ("UOP", 18446744073709547520, 18446744073709551600)] ∧
    (Memory.empty 18446744073709535232 4096 ⟨64, 8192, 256, 64, 4, 16⟩).Contained lastRun ∧
    ¬∃ o, ((Request.reserve "INSN" .insn 16).call
      ((Memory.empty 18446744073709535232 4096 ⟨64, 8192, 256, 64, 4, 16⟩).serveAll lastRun)).1 =
        .ok o := by
  have hvalid : Config.wideWeights.validate = .ok () := by decide
  have hd : Config.wideWeights.divisors = .ok ⟨64, 8192, 256, 64, 4, 16⟩ := by decide
  have hrun := @run_ascending Config.wideWeights 18446744073709535232 4096 _ hvalid hd
  have hascending : Ascending 18446744073709535232 ((Memory.empty 18446744073709535232 4096
      ⟨64, 8192, 256, 64, 4, 16⟩).serveAll lastRun).objects := by decide
  refine ⟨hvalid, hd, by decide, (hrun lastRun).2.2.1 (by decide) hascending, fun hanswered => ?_⟩
  have hnext := (hrun (lastRun ++ [.reserve "INSN" .insn 16])).2.2.2 lastRun []
    (.reserve "INSN" .insn 16) _ rfl rfl hascending
  obtain ⟨page, hpage, hwords⟩ := hnext.1.1 hanswered
  obtain rfl : page = 18446744073709551616 :=
    Option.some.inj (hpage.symm.trans (show _ = some 18446744073709551616 by decide))
  exact absurd (hwords 0 (by decide)) (by decide)

/-- **The address space has an end**: an object that would start behind it starts before the base,
and one that starts on the last page may end before it starts. -/
theorem lastPage_descends : Config.wideWeights.validate = .ok () ∧
    Config.wideWeights.divisors = .ok ⟨64, 8192, 256, 64, 4, 16⟩ ∧
    ((Memory.empty 18446744073709551615 0 ⟨64, 8192, 256, 64, 4, 16⟩).serveAll
        [.reserve "A" .insn 16]).objects = [⟨"A", .insn, 0, 0, 16, #[]⟩] ∧
    ¬Ascending 18446744073709551615
      ((Memory.empty 18446744073709551615 0 ⟨64, 8192, 256, 64, 4, 16⟩).serveAll
        [.reserve "A" .insn 16]).objects ∧
    ((Memory.empty 18446744073709547520 0 ⟨64, 8192, 256, 64, 4, 16⟩).serveAll
        [.reserve "A" .insn 4112]).objects =
      [⟨"A", .insn, 18446744073709547520, 1152921504606846720, 4112, #[]⟩] ∧
    ¬Ascending 18446744073709547520
      ((Memory.empty 18446744073709547520 0 ⟨64, 8192, 256, 64, 4, 16⟩).serveAll
        [.reserve "A" .insn 4112]).objects := by
  decide

end Run

end Tessera
