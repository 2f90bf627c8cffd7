import Wasmtime.Unwinder.ExceptionTable

/-!
# Which handler is found

A call site means that the handler of the tag is taken, and otherwise the default handler
(`handlerFor`). `lookup` finds the call site and the tag by binary search and looks for a default
handler at the end only, so that it depends on the order of the handlers.

`search_eq_iff`: what `lookup` does with one entry (`Entry.search`) agrees with the meaning if the
default handler is the last one, and every tag is `Separated` from the tags that it is compared
with, or has the same handler as the default. Ascending tags are such, and if the handlers are
different no other order is (`Entry.Searchable.ascending`). `lookup_exact_iff` carries this to whole
tables.
-/

namespace Wasmtime.Unwinder

open Base Prog List U32Bytes ExceptionTableBuilder

/-! ### What a call site means -/

namespace FinalizedMachExceptionHandler

def tagged (tag : Nat) : FinalizedMachExceptionHandler → Option Nat
  | .tag tag' offset => if tag' = tag then some offset else none
  | _ => none

def fallback : FinalizedMachExceptionHandler → Option Nat
  | .default offset => some offset
  | _ => none

end FinalizedMachExceptionHandler

/-- The handler that an exception with a tag goes to, wherever it is in the list. -/
def FinalizedMachCallSite.handlerFor (callSite : FinalizedMachCallSite) (tag : Nat) : Option Nat :=
  (callSite.exceptionHandlers.findSome? (·.tagged tag)).or
    (callSite.exceptionHandlers.findSome? (·.fallback))

def expected (funcs : List Func) (pc tag : Nat) : Option Nat :=
  funcs.findSome? fun f => f.callSites.findSome? fun c =>
    if c.retAddr + f.startOffset = pc then (c.handlerFor tag).map (· + f.startOffset) else none

namespace Entry

def keys (e : Entry) : List Nat := e.items.map (·.key)

def handlerFor (e : Entry) (tag : Nat) : Option Nat :=
  ((e.items.find? (·.key == tag)).or (e.items.find? (·.key == u32Max))).map (·.handler)

def search (e : Entry) (tag : Nat) : Option Nat :=
  match binarySearch e.keys tag with
  | some i => (e.items[i]?).map (·.handler)
  | none =>
    if e.items.getLast?.map (·.key) = some u32Max then e.items.getLast?.map (·.handler) else none

end Entry

theorem find?_tag {startOffset tag : Nat} (htag : tag ≠ u32Max) (context : Nat)
    (hs : List FinalizedMachExceptionHandler) :
    ((itemsOf startOffset context hs).find? (·.key == tag)).map (·.handler) =
      (hs.findSome? (·.tagged tag)).map (· + startOffset) := by
  induction hs generalizing context with
  | nil => rfl
  | cons h hs ih =>
    cases h with
    | tag t offset =>
      by_cases ht : (t : Nat) = tag
      · simp [itemsOf, FinalizedMachExceptionHandler.tagged, ht]
      · simp [itemsOf, FinalizedMachExceptionHandler.tagged, ht, ih]
    | default offset =>
      simp [itemsOf, FinalizedMachExceptionHandler.tagged, Ne.symm htag, ih]
    | context loc => cases loc <;> simp [itemsOf, FinalizedMachExceptionHandler.tagged, ih]

theorem find?_fallback (startOffset context : Nat) (hs : List FinalizedMachExceptionHandler) :
    ((itemsOf startOffset context hs).find? (·.key == u32Max)).map (·.handler) =
      (hs.findSome? (·.fallback)).map (· + startOffset) := by
  induction hs generalizing context with
  | nil => rfl
  | cons h hs ih =>
    cases h with
    | tag t offset =>
      have ht : (t : Nat) ≠ u32Max := t.isLt.ne
      simp [itemsOf, FinalizedMachExceptionHandler.fallback, ht, ih]
    | default offset => simp [itemsOf, FinalizedMachExceptionHandler.fallback]
    | context loc => cases loc <;> simp [itemsOf, FinalizedMachExceptionHandler.fallback, ih]

theorem findSome?_tagged_u32Max (hs : List FinalizedMachExceptionHandler) :
    hs.findSome? (·.tagged u32Max) = none := by
  rw [findSome?_eq_none_iff]
  intro h _
  cases h with
  | tag t offset => exact if_neg t.isLt.ne
  | default offset => rfl
  | context loc => rfl

theorem handlerFor_entry (c : FinalizedMachCallSite) (startOffset tag : Nat) :
    (c.entry startOffset).handlerFor tag = (c.handlerFor tag).map (· + startOffset) := by
  have hmap : ∀ (a b : Option Item),
      (a.or b).map (·.handler) = (a.map (·.handler)).or (b.map (·.handler)) := by
    intro a b
    cases a <;> rfl
  have hadd : ∀ (a b : Option Nat),
      (a.or b).map (· + startOffset) = (a.map (· + startOffset)).or (b.map (· + startOffset)) := by
    intro a b
    cases a <;> rfl
  unfold Entry.handlerFor FinalizedMachCallSite.handlerFor FinalizedMachCallSite.entry
  rw [hmap, hadd]
  by_cases htag : tag = u32Max
  · subst htag
    rw [findSome?_tagged_u32Max, find?_fallback, Option.or_self]
    rfl
  · rw [find?_tag htag, find?_fallback]

theorem expected_eq (funcs : List Func) (pc tag : Nat) :
    expected funcs pc tag =
      (entriesOf funcs).findSome? fun e => if e.addr = pc then e.handlerFor tag else none := by
  unfold expected
  induction funcs with
  | nil => rfl
  | cons f funcs ih =>
    rw [entriesOf_cons, findSome?_append, ← ih, findSome?_cons, Func.entries, findSome?_map]
    have hsite : ((fun e : Entry => if e.addr = pc then e.handlerFor tag else none) ∘
        fun c : FinalizedMachCallSite => c.entry f.startOffset) = fun c =>
          if c.retAddr + f.startOffset = pc then (c.handlerFor tag).map (· + f.startOffset)
          else none := by
      funext c
      simp only [Function.comp, handlerFor_entry]
      rfl
    rw [hsite]
    cases (f.callSites.findSome? _) <;> rfl

/-! ### Searching the entries -/

def Entry.Words (e : Entry) : Prop :=
  e.addr < u32Size ∧ ∀ x ∈ e.items, x.key < u32Size ∧ x.handler < u32Size

theorem map_get_new {α : Type} {f : α → Nat} {l : List α} (h : ∀ x ∈ l, f x < u32Size) :
    (l.map fun x => U32Bytes.new (f x)).map U32Bytes.get = l.map f := by
  rw [map_map]
  refine map_congr_left fun x hx => ?_
  rw [Function.comp_apply, get_new (h x hx)]

variable {es : List Entry}

theorem slice_flatMap {i : Nat} (hi : i < es.length) {f : Item → U32Bytes} :
    ((((es.flatMap (·.items)).map f).take (handlerCount (es.take (i + 1)))).drop
      (handlerCount (es.take i))) = (es[i].items).map f := by
  have h := drop_take_succ_flatten_eq_getElem (es.map (·.items)) i (by simpa using hi)
  have hsum : ∀ n, handlerCount (es.take n) =
      (((es.map (·.items)).map List.length).take n).sum := by
    intro n
    simp [handlerCount, map_take, Function.comp_def]
  rw [← map_take, ← map_drop, hsum, hsum, flatMap_def, h, getElem_map]

theorem handlerCount_take_le (es : List Entry) (n : Nat) :
    handlerCount (es.take n) ≤ handlerCount es := by
  have h := handlerCount_append (es.take n) (es.drop n)
  rw [take_append_drop] at h
  omega

theorem handlerCount_take_mono (es : List Entry) (n : Nat) :
    handlerCount (es.take n) ≤ handlerCount (es.take (n + 1)) := by
  have h := handlerCount_take_le (es.take (n + 1)) n
  rwa [take_take, Nat.min_eq_left (Nat.le_succ n)] at h

variable {e : Entry}

theorem lookupTag_run (hw : e.Words) (tag : Nat) :
    ExceptionTable.lookupTag (e.items.map fun x => .new x.key)
      (e.items.map fun x => .new x.handler) tag () = (.ok (e.search tag), ()) := by
  have hkeys : (e.items.map fun x => U32Bytes.new x.key).map U32Bytes.get = e.keys :=
    map_get_new fun x hx => (hw.2 x hx).1
  unfold ExceptionTable.lookupTag Entry.search
  rw [hkeys]
  cases hs : binarySearch e.keys tag with
  | some i =>
    have hi : i < e.items.length := by
      simpa [Entry.keys] using lt_of_getElem? (getElem?_of_binarySearch hs)
    have hget := get_new (hw.2 _ (getElem_mem hi)).2
    simp [unwrap, hi, hget]
  | none =>
    have hlast : (e.items.map fun x => U32Bytes.new x.key).getLast?.map U32Bytes.get =
        e.items.getLast?.map (·.key) := by
      rw [getLast?_map, Option.map_map]
      cases h : e.items.getLast? with
      | none => rw [Option.map_none, Option.map_none]
      | some x =>
        rw [Option.map_some, Option.map_some, Function.comp_apply,
          get_new (hw.2 x (mem_of_getLast? h)).1]
    by_cases hmax : e.items.getLast?.map (·.key) = some u32Max
    · rw [if_pos (hlast.trans hmax), if_pos hmax]
      cases h : e.items.getLast? with
      | none => simp [h] at hmax
      | some x =>
        have hget := get_new (hw.2 x (mem_of_getLast? h)).2
        simp [unwrap, getLast?_map, h, hget]
    · rw [if_neg (fun h => hmax (hlast.symm.trans h)), if_neg hmax]
      rfl

/-- **What `lookup` returns** on the table of some entries; it does not panic. -/
theorem lookup_tableOf (hw : ∀ e ∈ es, e.Words) (hcount : handlerCount es < u32Size)
    (pc tag : Nat) : (tableOf es).lookup pc tag () =
      (.ok ((binarySearch (es.map (·.addr)) pc).bind fun i => (es[i]?).bind (·.search tag)),
        ()) := by
  have haddr : ((tableOf es).callsites).map U32Bytes.get = es.map (·.addr) :=
    map_get_new fun e he => (hw e he).1
  unfold ExceptionTable.lookup
  rw [haddr]
  cases hs : binarySearch (es.map (·.addr)) pc with
  | none => rfl
  | some i =>
    have hi : i < es.length := by simpa using lt_of_getElem? (getElem?_of_binarySearch hs)
    have hrange : ∀ j < es.length, (tableOf es).rangeAt j () =
        (.ok (handlerCount (es.take (j + 1))), ()) := by
      intro j hj
      have hget := get_new ((handlerCount_take_le es (j + 1)).trans_lt hcount)
      simp [ExceptionTable.rangeAt, tableOf, hj, unwrap, hget]
    have hstart : (tableOf es).rangeStart i () = (.ok (handlerCount (es.take i)), ()) := by
      unfold ExceptionTable.rangeStart
      split_ifs with hpos
      · rw [hrange (i - 1) (by omega), Nat.sub_add_cancel hpos]
      · obtain rfl : i = 0 := by omega
        rfl
    have hslice : ∀ f : Item → U32Bytes, ExceptionTable.subslice ((es.flatMap (·.items)).map f)
        (handlerCount (es.take i)) (handlerCount (es.take (i + 1))) () =
        (.ok ((es[i].items).map f), ()) := by
      intro f
      have hb : handlerCount (es.take i) ≤ handlerCount (es.take (i + 1)) ∧
          handlerCount (es.take (i + 1)) ≤ ((es.flatMap (·.items)).map f).length := by
        rw [length_map, length_flatMap_items]
        exact ⟨handlerCount_take_mono es i, handlerCount_take_le es (i + 1)⟩
      unfold ExceptionTable.subslice
      rw [decide_eq_true hb, slice_flatMap hi]
      rfl
    dsimp only
    rw [run_bind_ok (hrange i hi), run_bind_ok hstart]
    have htags : ExceptionTable.subslice (tableOf es).tags _ _ () = _ := hslice fun x => .new x.key
    have hhandlers : ExceptionTable.subslice (tableOf es).handlers _ _ () = _ :=
      hslice fun x => .new x.handler
    rw [run_bind_ok htags, run_bind_ok hhandlers, lookupTag_run (hw _ (getElem_mem hi))]
    simp [hi]

/-! ### When the search is exact -/

namespace Entry

/-- The key at a position compares with every key that the search looks at on the way there as
their positions do. -/
def Separated (e : Entry) (i : Nat) : Prop :=
  ∀ mid ∈ probes i e.keys.length 0 e.keys.length, (e.keys.getD i 0 < e.keys.getD mid 0 ↔ i < mid)

/-- The default handler is the last one, and every tag is separated from those that it is
compared with, or its handler is the default handler anyway. -/
structure Searchable (e : Entry) : Prop where
  default_last : ∀ i x, e.items[i]? = some x → x.key = u32Max → i + 1 = e.items.length
  separated : ∀ i x, e.items[i]? = some x → x.key ≠ u32Max →
    e.Separated i ∨ ∃ d ∈ e.items, d.key = u32Max ∧ d.handler = x.handler

variable {e : Entry}

variable {x : Item}

theorem getElem?_keys {i : Nat} (h : e.items[i]? = some x) : e.keys[i]? = some x.key := by
  rw [keys, getElem?_map, h, Option.map_some]

theorem eq_of_key (hs : e.keys.Nodup) {x y : Item} (hx : x ∈ e.items) (hy : y ∈ e.items)
    (h : x.key = y.key) : x = y :=
  inj_on_of_nodup_map hs hx hy h

theorem find?_key (hs : e.keys.Nodup) (hx : x ∈ e.items) :
    e.items.find? (·.key == x.key) = some x := by
  obtain ⟨y, hy⟩ : ∃ y, e.items.find? (·.key == x.key) = some y := by
    rw [← Option.isSome_iff_exists, find?_isSome]
    exact ⟨x, hx, by simp⟩
  have hkey : y.key = x.key := by simpa using find?_some hy
  rw [hy, eq_of_key hs (mem_of_find?_eq_some hy) hx hkey]

variable {tag : Nat}

theorem find?_none (h : tag ∉ e.keys) : e.items.find? (·.key == tag) = none := by
  rw [find?_eq_none]
  intro x hx hkey
  exact h (mem_map.2 ⟨x, hx, by simpa using hkey⟩)

theorem handlerFor_key (hs : e.keys.Nodup) (hx : x ∈ e.items) :
    e.handlerFor x.key = some x.handler := by
  rw [handlerFor, find?_key hs hx]
  rfl

theorem handlerFor_default (hs : e.keys.Nodup) (htag : tag ∉ e.keys) {d : Item} (hd : d ∈ e.items)
    (hkey : d.key = u32Max) : e.handlerFor tag = some d.handler := by
  rw [handlerFor, find?_none htag, Option.none_or, ← hkey, find?_key hs hd]
  rfl

theorem handlerFor_none (htag : tag ∉ e.keys) (hmax : u32Max ∉ e.keys) :
    e.handlerFor tag = none := by
  rw [handlerFor, find?_none htag, find?_none hmax]
  rfl

theorem search_some {tag i : Nat} (h : binarySearch e.keys tag = some i)
    (hx : e.items[i]? = some x) : e.search tag = some x.handler := by
  unfold search
  rw [h]
  simp [hx]

theorem binarySearch_key (hs : e.keys.Nodup) {i : Nat} (hx : e.items[i]? = some x) :
    binarySearch e.keys x.key = some i ∨ binarySearch e.keys x.key = none := by
  cases h : binarySearch e.keys x.key with
  | none => exact .inr rfl
  | some j =>
    left
    have hj := getElem?_of_binarySearch h
    have hi := getElem?_keys hx
    rw [← hj] at hi
    exact congrArg some ((getElem?_inj (lt_of_getElem? (hi.trans hj)) hs).1 hi).symm

theorem binarySearch_none (h : tag ∉ e.keys) : binarySearch e.keys tag = none := by
  cases hs : binarySearch e.keys tag with
  | none => rfl
  | some i => exact absurd (mem_of_getElem? (getElem?_of_binarySearch hs)) h

theorem search_missed_default (h : binarySearch e.keys tag = none) {d : Item}
    (hd : e.items.getLast? = some d) (hkey : d.key = u32Max) : e.search tag = some d.handler := by
  unfold search
  rw [h]
  simp [hd, hkey]

theorem search_missed_none (h : binarySearch e.keys tag = none)
    (hlast : ∀ d, e.items.getLast? = some d → d.key ≠ u32Max) : e.search tag = none := by
  unfold search
  rw [h]
  cases hd : e.items.getLast? with
  | none => simp
  | some d => simp [hlast d hd]

theorem separated_iff {i : Nat} (hx : e.items[i]? = some x) :
    e.Separated i ↔ binarySearch e.keys x.key = some i := by
  rw [binarySearch_self_iff (getElem?_keys hx)]
  unfold Separated
  rw [getD_of_getElem? (getElem?_keys hx)]

theorem Searchable.getLast? (h : e.Searchable) {d : Item} (hd : d ∈ e.items)
    (hkey : d.key = u32Max) : e.items.getLast? = some d := by
  obtain ⟨i, hi⟩ := mem_iff_getElem?.1 hd
  rw [getLast?_eq_getElem?, ← h.default_last i d hi hkey, Nat.add_sub_cancel, hi]

theorem search_eq_of_searchable (hs : e.keys.Nodup) (h : e.Searchable) (tag : Nat) :
    e.search tag = e.handlerFor tag := by
  by_cases htag : tag ∈ e.keys
  · obtain ⟨x, hx, rfl⟩ := mem_map.1 htag
    obtain ⟨i, hi⟩ := mem_iff_getElem?.1 hx
    rw [handlerFor_key hs hx]
    rcases binarySearch_key hs hi with hfound | hmissed
    · exact search_some hfound hi
    · by_cases hmax : x.key = u32Max
      · exact search_missed_default hmissed (h.getLast? hx hmax) hmax
      · rcases h.separated i x hi hmax with hsep | ⟨d, hd, hdkey, hsame⟩
        · rw [(separated_iff hi).1 hsep] at hmissed
          cases hmissed
        · rw [← hsame]
          exact search_missed_default hmissed (h.getLast? hd hdkey) hdkey
  · have hmissed := binarySearch_none htag
    by_cases hmax : u32Max ∈ e.keys
    · obtain ⟨d, hd, hkey⟩ := mem_map.1 hmax
      rw [handlerFor_default hs htag hd hkey]
      exact search_missed_default hmissed (h.getLast? hd hkey) hkey
    · rw [handlerFor_none htag hmax]
      refine search_missed_none hmissed fun d hd hkey => hmax ?_
      exact mem_map.2 ⟨d, mem_of_getLast? hd, hkey⟩

theorem exists_unmatched (hlen : e.items.length < u32Size) : ∃ tag < u32Size, tag ∉ e.keys := by
  have hcard : e.keys.toFinset.card < (Finset.range u32Size).card := by
    rw [Finset.card_range]
    refine (toFinset_card_le _).trans_lt ?_
    rwa [keys, length_map]
  obtain ⟨tag, hin, hout⟩ := Finset.exists_mem_notMem_of_card_lt_card hcard
  exact ⟨tag, Finset.mem_range.1 hin, fun h => hout (mem_toFinset.2 h)⟩

/-- **The search of one call site is exact** if and only if its handlers are searchable. -/
theorem search_eq_iff (hs : e.keys.Nodup) (hlen : e.items.length < u32Size)
    (hkeys : ∀ k ∈ e.keys, k < u32Size) :
    (∀ tag < u32Size, e.search tag = e.handlerFor tag) ↔ e.Searchable := by
  refine ⟨fun h => ⟨fun i d hi hkey => ?_, fun i x hi hkey => ?_⟩,
    fun h tag _ => search_eq_of_searchable hs h tag⟩
  · -- a tag without a handler must reach the default, which only the last place allows
    obtain ⟨tag, hlt, htag⟩ := exists_unmatched hlen
    have hd := mem_of_getElem? hi
    have hexp := h tag hlt
    rw [handlerFor_default hs htag hd hkey] at hexp
    by_contra hlast
    rw [search_missed_none (binarySearch_none htag)] at hexp
    · cases hexp
    · intro d' hd' hkey'
      obtain rfl := eq_of_key hs (mem_of_getLast? hd') hd (hkey'.trans hkey.symm)
      rw [getLast?_eq_getElem?] at hd'
      have hi' := getElem?_keys hi
      have hd'' := getElem?_keys hd'
      rw [← hd''] at hi'
      have := (getElem?_inj (lt_of_getElem? (hi'.trans hd'')) hs).1 hi'
      have := (List.getElem?_eq_some_iff.1 hi).1
      omega
  · -- a tag that is not found gets what a missing one gets
    have hx := mem_of_getElem? hi
    rw [separated_iff hi]
    rcases binarySearch_key hs hi with hfound | hmissed
    · exact .inl hfound
    · right
      have hexp := h x.key (hkeys _ (mem_map.2 ⟨x, hx, rfl⟩))
      rw [handlerFor_key hs hx] at hexp
      cases hd : e.items.getLast? with
      | none =>
        rw [search_missed_none hmissed (by simp [hd])] at hexp
        cases hexp
      | some d =>
        by_cases hdkey : d.key = u32Max
        · rw [search_missed_default hmissed hd hdkey] at hexp
          exact ⟨d, mem_of_getLast? hd, hdkey, Option.some.inj hexp⟩
        · rw [search_missed_none hmissed (by simp [hd, hdkey])] at hexp
          cases hexp

theorem searchable_of_ascending (hle : ∀ k ∈ e.keys, k ≤ u32Max)
    (hasc : e.keys.Pairwise (· < ·)) : e.Searchable := by
  refine ⟨fun i x hi hkey => ?_, fun i x hi _ => .inl ?_⟩
  · by_contra hne
    have hlt := (List.getElem?_eq_some_iff.1 hi).1
    have hnext : i + 1 < e.keys.length := by
      rw [keys, length_map]
      omega
    have hless := (lt_iff_of_ascending hasc (by omega) hnext).2 (Nat.lt_succ_self i)
    rw [getD_of_getElem? (getElem?_keys hi), hkey,
      getD_of_getElem? (getElem?_eq_getElem hnext)] at hless
    exact absurd (hle _ (getElem_mem hnext)) (by omega)
  · have := probes_of_ascending hasc (getElem?_keys hi)
    unfold Separated
    rwa [getD_of_getElem? (getElem?_keys hi)]

theorem Searchable.ascending (h : e.Searchable) (hdiff : (e.items.map (·.handler)).Nodup) :
    e.keys.Pairwise (· < ·) := by
  refine ascending_of_probes fun i key hi hlt => ?_
  have hlt' : i + 1 < e.items.length := by simpa [keys] using hlt
  have hx : e.items[i]? = some e.items[i] := getElem?_eq_getElem (by omega)
  have hne : e.items[i].key ≠ u32Max := by
    intro hmax
    have := h.default_last i _ hx hmax
    omega
  rcases h.separated i _ hx hne with hsep | ⟨d, hd, hdkey, hsame⟩
  · unfold Separated at hsep
    rwa [getD_of_getElem? hi] at hsep
  · have heq := inj_on_of_nodup_map hdiff hd (mem_of_getElem? hx) hsame
    exact absurd (heq ▸ hdkey) hne

end Entry

/-! ### Whole tables -/

theorem findSome?_addr (hasc : (es.map (·.addr)).Nodup) (he : e ∈ es) (f : Entry → Option Nat) :
    (es.findSome? fun e' => if e'.addr = e.addr then f e' else none) = f e := by
  induction es with
  | nil => cases he
  | cons e' es ih =>
    rw [map_cons, nodup_cons] at hasc
    rw [findSome?_cons]
    rcases mem_cons.1 he with rfl | hmem
    · rw [if_pos rfl]
      cases hf : f e with
      | some n => rfl
      | none =>
        refine findSome?_eq_none_iff.2 fun e' he' => if_neg fun heq => ?_
        exact hasc.1 (heq ▸ mem_map.2 ⟨e', he', rfl⟩)
    · have hne : e'.addr ≠ e.addr := by
        intro heq
        exact hasc.1 (heq ▸ mem_map.2 ⟨e, hmem, rfl⟩)
      rw [if_neg hne]
      exact ih hasc.2 hmem

theorem findSome?_addr_none {pc : Nat} (h : pc ∉ es.map (·.addr)) (f : Entry → Option Nat) :
    (es.findSome? fun e => if e.addr = pc then f e else none) = none := by
  refine findSome?_eq_none_iff.2 fun e he => if_neg fun heq => ?_
  exact h (mem_map.2 ⟨e, he, heq⟩)

/-- The two searches of `lookup` on the entries that are kept, as one on all of them. -/
theorem search_kept (hasc : (es.map (·.addr)).Pairwise (· < ·)) (pc tag : Nat) :
    ((binarySearch ((kept es).map (·.addr)) pc).bind fun i => ((kept es)[i]?).bind (·.search tag)) =
      es.findSome? fun e => if e.addr = pc then e.search tag else none := by
  have hnodup : (es.map (·.addr)).Nodup := hasc.imp fun h => h.ne
  have hkept : ((kept es).map (·.addr)).Pairwise (· < ·) := hasc.sublist (filter_sublist.map _)
  cases hs : binarySearch ((kept es).map (·.addr)) pc with
  | some i =>
    have hi := getElem?_of_binarySearch hs
    rw [getElem?_map, Option.map_eq_some_iff] at hi
    obtain ⟨e, he, rfl⟩ := hi
    have hmem : e ∈ es := mem_of_mem_filter (mem_of_getElem? he)
    rw [findSome?_addr hnodup hmem, Option.bind_some, he, Option.bind_some]
  | none =>
    rw [Option.bind_none]
    by_cases hpc : pc ∈ es.map (·.addr)
    · obtain ⟨e, he, rfl⟩ := mem_map.1 hpc
      rw [findSome?_addr hnodup he]
      cases hitems : e.items with
      | nil => simp [Entry.search, Entry.keys, hitems, binarySearch]
      | cons x l =>
        have hin : e ∈ kept es := mem_filter.2 ⟨he, by simp [hitems]⟩
        obtain ⟨i, hi⟩ := mem_iff_getElem?.1 hin
        have hfound := (binarySearch_eq_some hkept).2 (show _ = some e.addr by
          rw [getElem?_map, hi]; rfl)
        rw [hs] at hfound
        cases hfound
    · rw [findSome?_addr_none hpc]

def FinalizedMachExceptionHandler.key : FinalizedMachExceptionHandler → Option Nat
  | .tag t _ => some t.val
  | .default _ => some u32Max
  | .context _ => none

/-- Functions and call sites come in ascending order; the tags of a call site are different, and
it has at most one default handler. -/
structure Ordered (funcs : List Func) : Prop where
  starts : funcs.Pairwise fun f g => f.startOffset ≤ g.startOffset
  sites : (funcs.flatMap fun f => f.callSites.map fun c => c.retAddr + f.startOffset).Pairwise
    (· < ·)
  handlers : ∀ f ∈ funcs, ∀ c ∈ f.callSites, (c.exceptionHandlers.filterMap (·.key)).Nodup

/-- What is built and parsed again gives every address and tag the handler that they mean. -/
def Exact (funcs : List Func) : Prop :=
  ∃ data s t, build funcs .empty = (.ok data, s) ∧ ExceptionTable.parse data = .ok t ∧
    ∀ pc tag, pc < u32Size → tag < u32Size → t.lookup pc tag () = (.ok (expected funcs pc tag), ())

theorem keys_entry (c : FinalizedMachCallSite) (startOffset : Nat) :
    (c.entry startOffset).keys = c.exceptionHandlers.filterMap (·.key) := by
  have hitems : ∀ (hs : List FinalizedMachExceptionHandler) (context : Nat),
      (itemsOf startOffset context hs).map (·.key) = hs.filterMap (·.key) := by
    intro hs
    induction hs with
    | nil => exact fun _ => rfl
    | cons h hs ih =>
      intro context
      cases h with
      | tag t offset | default offset => simp [itemsOf, FinalizedMachExceptionHandler.key, ih]
      | context loc => cases loc <;> simp [itemsOf, FinalizedMachExceptionHandler.key, ih]
  exact hitems ..

variable {funcs : List Func}

theorem mem_entriesOf :
    e ∈ entriesOf funcs ↔ ∃ f ∈ funcs, ∃ c ∈ f.callSites, c.entry f.startOffset = e := by
  simp [entriesOf, Func.entries]

theorem map_addr_entriesOf (funcs : List Func) :
    (entriesOf funcs).map (·.addr) =
      funcs.flatMap fun f => f.callSites.map fun c => c.retAddr + f.startOffset := by
  simp only [entriesOf, Func.entries, map_flatMap, map_map]
  rfl

theorem words_itemsOf {startOffset : Nat} {hs : List FinalizedMachExceptionHandler}
    (h : ∀ x ∈ hs, x.Fits startOffset) (context : Nat) :
    ∀ x ∈ itemsOf startOffset context hs, x.key < u32Size ∧ x.handler < u32Size := by
  induction hs generalizing context with
  | nil => exact nofun
  | cons y hs ih =>
    rw [forall_mem_cons] at h
    cases y with
    | tag t offset =>
      refine forall_mem_cons.2 ⟨⟨t.isLt.trans (by decide), h.1⟩, ih h.2 context⟩
    | default offset =>
      have hmax : u32Max < u32Size := by decide
      exact forall_mem_cons.2 ⟨⟨hmax, h.1⟩, ih h.2 context⟩
    | context loc =>
      cases loc with
      | spOffset offset => exact ih h.2 offset
      | gpr reg => exact h.1.elim

theorem Encodable.words (h : Encodable funcs) : ∀ e ∈ entriesOf funcs, e.Words := by
  intro e he
  obtain ⟨f, hf, c, hc, rfl⟩ := mem_entriesOf.1 he
  obtain ⟨hret, hhandlers⟩ := h.fits f hf c hc
  exact ⟨hret, words_itemsOf hhandlers _⟩

theorem lookup_built (h : Encodable funcs) (pc tag : Nat) :
    (tableOf (kept (entriesOf funcs))).lookup pc tag () =
      (.ok ((binarySearch ((kept (entriesOf funcs)).map (·.addr)) pc).bind fun i =>
        ((kept (entriesOf funcs))[i]?).bind (·.search tag)), ()) := by
  have hcount : handlerCount (kept (entriesOf funcs)) < u32Size := by
    rw [handlerCount_kept]
    exact h.count
  exact lookup_tableOf (fun e he => h.words e (mem_of_mem_filter he)) hcount pc tag

theorem length_items_le (he : e ∈ es) : e.items.length ≤ handlerCount es :=
  single_le_sum (fun _ _ => Nat.zero_le _) _ (mem_map.2 ⟨e, he, rfl⟩)

/-- **Exact lookups.** For functions and call sites in ascending order, with different tags and
at most one default handler at each call site, the handler that is found is the right one for
every address and tag if and only if the input is encodable and every call site is searchable.
Ascending tags with the default handler last are searchable, and if the handlers of a call site
are different no other order is. The accepted byte strings are the serialisations of
well-formed tables, and `lookup` does not panic on what was built. -/
theorem lookup_exact_iff {funcs : List Func} (hord : Ordered funcs) :
    (Exact funcs ↔ Encodable funcs ∧ ∀ e ∈ entriesOf funcs, e.Searchable) ∧
    (∀ e : Entry, (∀ k ∈ e.keys, k ≤ u32Max) → e.keys.Pairwise (· < ·) → e.Searchable) ∧
    (∀ e : Entry, e.Searchable → (e.items.map (·.handler)).Nodup → e.keys.Pairwise (· < ·)) ∧
    (∀ data t, ExceptionTable.parse data = .ok t ↔ t.WellFormed ∧ data = t.toBuilder.bytes) ∧
    (∀ funcs data s, build funcs .empty = (.ok data, s) → ∃ t, ExceptionTable.parse data = .ok t ∧
        ∀ pc tag, ∃ r, t.lookup pc tag () = (.ok r, ())) := by
  refine ⟨?_, fun e => Entry.searchable_of_ascending, fun e => ?_,
    fun data t => ExceptionTable.parse_eq_ok, fun funcs data s hrun => ?_⟩
  · have hasc : ((entriesOf funcs).map (·.addr)).Pairwise (· < ·) := by
      rw [map_addr_entriesOf]
      exact hord.sites
    have hnodup : ∀ e ∈ entriesOf funcs, e.keys.Nodup := by
      intro e he
      obtain ⟨f, hf, c, hc, rfl⟩ := mem_entriesOf.1 he
      rw [keys_entry]
      exact hord.handlers f hf c hc
    constructor
    · rintro ⟨data, s, t, hrun, hparse, hlookup⟩
      obtain ⟨henc, hparse'⟩ := build_parse hrun
      rw [hparse'] at hparse
      cases hparse
      refine ⟨henc, fun e he => ?_⟩
      have hw := henc.words e he
      rw [← Entry.search_eq_iff (hnodup e he) ((length_items_le he).trans_lt henc.count)
        (fun k hk => by obtain ⟨x, hx, rfl⟩ := mem_map.1 hk; exact (hw.2 x hx).1)]
      intro tag htag
      have := hlookup e.addr tag hw.1 htag
      rw [lookup_built henc, search_kept hasc, expected_eq,
        findSome?_addr (hasc.imp fun h => h.ne) he,
        findSome?_addr (hasc.imp fun h => h.ne) he] at this
      simpa using this
    · rintro ⟨henc, hsearch⟩
      obtain ⟨data, s, hrun⟩ := (build_ok_iff hord.starts).2 henc
      refine ⟨data, s, _, hrun, (build_parse hrun).2, fun pc tag _ _ => ?_⟩
      rw [lookup_built henc, search_kept hasc, expected_eq]
      by_cases hpc : pc ∈ (entriesOf funcs).map (·.addr)
      · obtain ⟨e, he, rfl⟩ := mem_map.1 hpc
        rw [findSome?_addr (hasc.imp fun h => h.ne) he, findSome?_addr (hasc.imp fun h => h.ne) he,
          Entry.search_eq_of_searchable (hnodup e he) (hsearch e he)]
      · rw [findSome?_addr_none hpc, findSome?_addr_none hpc]
  · exact fun h hdiff => h.ascending hdiff
  · obtain ⟨henc, hparse⟩ := build_parse hrun
    exact ⟨_, hparse, fun pc tag => ⟨_, lookup_built henc pc tag⟩⟩

def twoTags (first second : ExceptionTag) : List Func :=
  [⟨0, [⟨16, [.tag first 32, .tag second 48]⟩]⟩]

theorem ordered_twoTags {first second : ExceptionTag} (h : first ≠ second) :
    Ordered (twoTags first second) where
  starts := pairwise_singleton ..
  sites := pairwise_singleton ..
  handlers := by
    intro f hf c hc
    obtain rfl := mem_singleton.1 hf
    obtain rfl := mem_singleton.1 hc
    have hne : first.val ≠ second.val := fun he => h (Fin.ext he)
    simpa [FinalizedMachExceptionHandler.key] using hne

theorem encodable_twoTags (first second : ExceptionTag) : Encodable (twoTags first second) where
  fits := by
    intro f hf c hc
    obtain rfl := mem_singleton.1 hf
    obtain rfl := mem_singleton.1 hc
    refine ⟨(by decide : 16 + 0 < u32Size), ?_⟩
    simp [FinalizedMachExceptionHandler.Fits, u32Size]
  count := (by decide : 2 < u32Size)

/-- With the larger tag first, it is not found. -/
theorem lookup_misses_larger_first :
    Ordered (twoTags ⟨2, by decide⟩ ⟨1, by decide⟩) ∧
    ∃ data s t, build (twoTags ⟨2, by decide⟩ ⟨1, by decide⟩) .empty = (.ok data, s) ∧
      ExceptionTable.parse data = .ok t ∧ t.lookup 16 2 () = (.ok none, ()) ∧
      expected (twoTags ⟨2, by decide⟩ ⟨1, by decide⟩) 16 2 = some 32 := by
  refine ⟨ordered_twoTags (by decide), ?_⟩
  have henc := encodable_twoTags ⟨2, by decide⟩ ⟨1, by decide⟩
  obtain ⟨data, s, hrun⟩ := (build_ok_iff (ordered_twoTags (by decide)).starts).2 henc
  refine ⟨data, s, _, hrun, (build_parse hrun).2, ?_, by decide⟩
  rw [lookup_built henc]
  exact congrArg (fun r => (Outcome.ok r, ())) (by decide)

/-- With the smaller tag first, every search is exact. -/
theorem lookup_exact_smaller_first :
    Ordered (twoTags ⟨1, by decide⟩ ⟨2, by decide⟩) ∧
      Exact (twoTags ⟨1, by decide⟩ ⟨2, by decide⟩) := by
  have hord : Ordered (twoTags ⟨1, by decide⟩ ⟨2, by decide⟩) := ordered_twoTags (by decide)
  refine ⟨hord, (lookup_exact_iff hord).1.2 ⟨encodable_twoTags _ _, fun e he => ?_⟩⟩
  obtain rfl := mem_singleton.1 he
  exact (lookup_exact_iff hord).2.1 _ (by decide) (by decide)

end Wasmtime.Unwinder
