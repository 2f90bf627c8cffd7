import Wasmtime.Environ.StackMap

/-!
# Stack maps are read as they were written

A section stands for the maps that were pushed (`Represents`). `push_run` is the step lemma and
`pushAll_run` the run lemma; the builder gives up (`pushAll_panics`) when a record would begin
beyond what a `u32` holds. `getEntry` finds the record of every entry, and `offsets_run` the offsets
in it. `writeSection_roundTrip` puts the two together.
-/

namespace Wasmtime.Environ

open Base Prog Cranelift List U32Bytes
open CompoundBitSet (hasBit Holds)

/-! ### What is written -/

structure ValidMap (m : PushedMap) : Prop where
  codeOffset : m.codeOffset ≤ u32Max
  frameSize : m.frameSize < u32Size
  offsets : ∀ o ∈ m.frameOffsets, o < u32Size ∧ o % 4 = 0

structure Valid (maps : List PushedMap) : Prop where
  map : ∀ m ∈ maps, ValidMap m
  ascending : maps.Pairwise fun a b => a.codeOffset < b.codeOffset

/-- The maps that are written: those with an offset. -/
def shown (maps : List PushedMap) : List PushedMap := maps.filter fun m => !m.frameOffsets.isEmpty

def dataSize (m : PushedMap) : Nat :=
  match m.frameOffsets.max? with
  | none => 0
  | some greatest => 3 + greatest / 128

def size (maps : List PushedMap) : Nat := (maps.map dataSize).sum

/-- Every record begins at a position that a `u32` holds, if the first begins at `position`. -/
def FitsFrom : Nat → List PushedMap → Prop
  | _, [] => True
  | position, m :: maps =>
    (m.frameOffsets ≠ [] → position < u32Size) ∧ FitsFrom (position + dataSize m) maps

def Fits (maps : List PushedMap) : Prop := FitsFrom 0 maps

instance FitsFrom.decidable : ∀ position maps, Decidable (FitsFrom position maps)
  | _, [] => inferInstanceAs (Decidable True)
  | position, m :: maps =>
    have := FitsFrom.decidable (position + dataSize m) maps
    inferInstanceAs (Decidable ((m.frameOffsets ≠ [] → position < u32Size) ∧
      FitsFrom (position + dataSize m) maps))

instance (maps : List PushedMap) : Decidable (Fits maps) := FitsFrom.decidable 0 maps

def Encodes (m : PushedMap) (record : List U32Bytes) : Prop := ∃ ws : List (BitVec 32),
    record = .new m.frameSize :: .new ws.length :: ws.map (fun w => .new w.toNat) ∧
    (∀ i, hasBit ws i = true ↔ 4 * i ∈ m.frameOffsets) ∧ 2 + ws.length = dataSize m

/-- Where each of a sequence of records begins. -/
def starts : Nat → List (List U32Bytes) → List Nat
  | _, [] => []
  | k, r :: rs => k :: starts (k + r.length) rs

/-- **The maps that a section stands for**, each with its record. -/
structure Represents (maps : List PushedMap) (s : StackMapSection)
    (entries : List (PushedMap × List U32Bytes)) : Prop where
  encodes : ∀ e ∈ entries, Encodes e.1 e.2
  fst : entries.map Prod.fst = shown maps
  pcs : s.pcs = entries.map fun e => .new e.1.codeOffset
  pointers : s.pointersToStackMap = (starts 0 (entries.map Prod.snd)).map .new
  starts_lt : ∀ p ∈ starts 0 (entries.map Prod.snd), p < u32Size
  data : s.stackMapData = (entries.map Prod.snd).flatten
  last : ∀ pc, (∀ m ∈ maps, m.codeOffset ≤ pc) → s.lastOffset ≤ pc

variable {maps before : List PushedMap} {m : PushedMap} {s s' : StackMapSection}
  {entries : List (PushedMap × List U32Bytes)} {record : List U32Bytes} {build : Build}

theorem dataSize_eq_zero (h : m.frameOffsets = []) : dataSize m = 0 := by
  rw [dataSize, h]
  rfl

theorem three_le_dataSize (h : m.frameOffsets ≠ []) : 3 ≤ dataSize m := by
  unfold dataSize
  cases hmax : m.frameOffsets.max? with
  | none => exact absurd (max?_eq_none_iff.1 hmax) h
  | some greatest => exact Nat.le_add_right 3 _

theorem size_append (maps maps' : List PushedMap) : size (maps ++ maps') = size maps + size maps' := by
  rw [size, map_append, sum_append]
  rfl

theorem size_shown (maps : List PushedMap) : size (shown maps) = size maps := by
  induction maps with
  | nil => rfl
  | cons m maps ih =>
    unfold shown size at ih ⊢
    rw [filter_cons]
    split_ifs with h
    · rw [map_cons, sum_cons, ih, map_cons, sum_cons]
    · have hempty : m.frameOffsets = [] := by simpa using h
      rw [ih, map_cons, sum_cons, dataSize_eq_zero hempty, Nat.zero_add]

theorem Encodes.length_eq (h : Encodes m record) : record.length = dataSize m := by
  obtain ⟨ws, rfl, -, hsize⟩ := h
  rw [← hsize]
  simp only [length_cons, length_map]
  omega

namespace Represents

theorem length_data (h : Represents maps s entries) : s.stackMapData.length = size maps := by
  rw [h.data, ← size_shown, ← h.fst, size, map_map, length_flatten, map_map]
  congr 1
  exact map_congr_left fun e he => (h.encodes e he).length_eq

theorem empty : Represents [] .empty [] :=
  ⟨fun _ h => (not_mem_nil h).elim, rfl, rfl, rfl, fun _ h => (not_mem_nil h).elim, rfl,
    fun _ _ => Nat.zero_le _⟩

end Represents

theorem shown_append (maps : List PushedMap) (m : PushedMap) :
    shown (maps ++ [m]) = if m.frameOffsets = [] then shown maps else shown maps ++ [m] := by
  unfold shown
  rw [filter_append]
  by_cases h : m.frameOffsets = []
  · simp [h]
  · simp [h]

theorem starts_append (k : Nat) (rs : List (List U32Bytes)) (r : List U32Bytes) :
    starts k (rs ++ [r]) = starts k rs ++ [k + rs.flatten.length] := by
  induction rs generalizing k with
  | nil => simp [starts]
  | cons a rs ih =>
    rw [cons_append, starts, ih, starts, cons_append, flatten_cons, length_append, Nat.add_assoc]

theorem insertOffsets_run {offsets : List Nat} {b : CompoundBitSet 32} {set : List Nat}
    (h : b.Holds set) (ho : ∀ o ∈ offsets, o < u32Size ∧ o % 4 = 0) :
    ∃ b' set', StackMapSection.insertOffsets offsets b s = (.ok b', s) ∧ b'.Holds set' ∧
      ∀ i, i ∈ set' ↔ 4 * i ∈ offsets ∨ i ∈ set := by
  induction offsets generalizing b set with
  | nil => exact ⟨b, set, rfl, h, fun i => by simp⟩
  | cons o offsets ih =>
    obtain ⟨hlt, hal⟩ := ho o mem_cons_self
    have hlt' : o / 4 < u32Size := lt_of_le_of_lt (Nat.div_le_self o 4) hlt
    obtain ⟨b1, hb1, hholds⟩ : ∃ b', (b.insert (o / 4) : Prog _ Empty _) s = (.ok b', s) ∧
        b'.Holds (o / 4 :: set) := CompoundBitSet.insert_run (by norm_num) h hlt'
    obtain ⟨b2, set2, hb2, hholds2, hmem⟩ := ih hholds fun o' ho' => ho o' (mem_cons_of_mem _ ho')
    refine ⟨b2, set2, ?_, hholds2, fun i => ?_⟩
    · unfold StackMapSection.insertOffsets
      exact bind_ok.2 ⟨(), s, assert_ok.2 ⟨decide_eq_true hal, rfl⟩, bind_ok.2 ⟨b1, s, hb1, hb2⟩⟩
    · rw [hmem, mem_cons, mem_cons]
      have : i = o / 4 ↔ 4 * i = o := by omega
      tauto

theorem greatest_div {offsets : List Nat} {set : List Nat} {greatest top : Nat}
    (hmax : offsets.max? = some greatest) (hmem : ∀ i, i ∈ set ↔ 4 * i ∈ offsets)
    (hal : ∀ o ∈ offsets, o % 4 = 0) (htop : top ∈ set ∧ ∀ i ∈ set, i ≤ top) :
    1 + top / 32 = 1 + greatest / 128 := by
  obtain ⟨hg, hle⟩ := max?_eq_some_iff.1 hmax
  have h1 := hle _ ((hmem top).1 htop.1)
  have h2 := hal greatest hg
  have h3 := htop.2 (greatest / 4) ((hmem _).2 (by rwa [show 4 * (greatest / 4) = greatest by omega]))
  omega

theorem pushRecord_run (hv : ValidMap m) (hne : m.frameOffsets ≠ []) :
    ∃ record, StackMapSection.pushRecord m.frameSize m.frameOffsets s =
      (.ok (), { s with stackMapData := s.stackMapData ++ record }) ∧ Encodes m record := by
  obtain ⟨b, set, hb, hholds, hmem⟩ := insertOffsets_run
    (s := { s with stackMapData := s.stackMapData ++ [.new m.frameSize] }) Holds.empty hv.offsets
  have hmem' : ∀ i, i ∈ set ↔ 4 * i ∈ m.frameOffsets := fun i => by rw [hmem]; simp
  obtain ⟨greatest, hgreatest⟩ : ∃ g, m.frameOffsets.max? = some g :=
    Option.ne_none_iff_exists'.1 fun hnone => hne (max?_eq_none_iff.1 hnone)
  have hset : set ≠ [] := by
    obtain ⟨hg, -⟩ := max?_eq_some_iff.1 hgreatest
    have := (hv.offsets greatest hg).2
    refine ne_nil_of_mem ((hmem' (greatest / 4)).2 ?_)
    rwa [show 4 * (greatest / 4) = greatest by omega]
  obtain ⟨top, htop⟩ : ∃ t, b.max = some t :=
    Option.ne_none_iff_exists'.1 fun hnone => hset (hholds.none hnone)
  obtain ⟨hbits, hlen⟩ := hholds.iterScalars htop
  refine ⟨.new m.frameSize :: .new b.iterScalars.length ::
    b.iterScalars.map (fun w => .new w.toNat), ?_, b.iterScalars, rfl, fun i => ?_, ?_⟩
  · unfold StackMapSection.pushRecord
    refine bind_ok.2 ⟨(), _, rfl, bind_ok.2 ⟨b, _, hb, ?_⟩⟩
    refine bind_ok.2 ⟨(), _, rfl, ?_⟩
    rw [run_modify]
    simp only [append_assoc, cons_append, nil_append]
  · rw [hbits, hmem']
  · rw [hlen, greatest_div hgreatest hmem' (fun o ho => (hv.offsets o ho).2)
      (hholds.max top htop), dataSize, hgreatest]
    dsimp only
    omega

theorem push_run (h : Represents maps s entries) (hv : ValidMap m)
    (hlast : ∀ m' ∈ maps, m'.codeOffset ≤ m.codeOffset)
    (hfits : m.frameOffsets ≠ [] → size maps < u32Size) :
    ∃ s' entries', StackMapSection.push m.codeOffset m.frameSize m.frameOffsets s = (.ok (), s') ∧
      Represents (maps ++ [m]) s' entries' := by
  have hcode : m.codeOffset < u32Size := by
    have := hv.codeOffset
    unfold u32Max at this
    unfold u32Size
    omega
  have hlast' : ∀ pc, (∀ m' ∈ maps ++ [m], m'.codeOffset ≤ pc) → m.codeOffset ≤ pc :=
    fun pc hpc => hpc m (by simp)
  have hstart : ∀ {s'}, (if m.frameOffsets.length = 0 then pure ()
      else StackMapSection.pushMap m.codeOffset m.frameSize m.frameOffsets :
        Prog StackMapSection Empty Unit) { s with lastOffset := m.codeOffset } = (.ok (), s') →
      StackMapSection.push m.codeOffset m.frameSize m.frameOffsets s = (.ok (), s') := by
    intro s' hrun
    exact bind_ok.2 ⟨(), s, assert_ok.2 ⟨decide_eq_true hcode, rfl⟩,
      bind_ok.2 ⟨s, s, rfl, bind_ok.2 ⟨(), s, assert_ok.2 ⟨decide_eq_true (h.last _ hlast), rfl⟩,
        bind_ok.2 ⟨(), _, rfl, hrun⟩⟩⟩⟩
  by_cases hempty : m.frameOffsets = []
  · refine ⟨{ s with lastOffset := m.codeOffset }, entries, hstart (by rw [hempty]; rfl),
      h.encodes, ?_, h.pcs, h.pointers, h.starts_lt, h.data, hlast'⟩
    rw [shown_append, if_pos hempty]
    exact h.fst
  · have hdata := h.length_data
    have hlt : s.stackMapData.length < u32Size := hdata ▸ hfits hempty
    obtain ⟨record, hrecord, hencodes⟩ := pushRecord_run (s := ⟨s.pcs ++ [.new m.codeOffset],
      s.pointersToStackMap ++ [.new s.stackMapData.length], s.stackMapData, m.codeOffset⟩) hv hempty
    have hstarts : starts 0 ((entries ++ [(m, record)]).map Prod.snd) =
        starts 0 (entries.map Prod.snd) ++ [s.stackMapData.length] := by
      rw [map_append, map_cons, map_nil, starts_append, h.data, Nat.zero_add]
    refine ⟨⟨s.pcs ++ [.new m.codeOffset], s.pointersToStackMap ++ [.new s.stackMapData.length],
      s.stackMapData ++ record, m.codeOffset⟩, entries ++ [(m, record)], hstart ?_,
      ?_, ?_, ?_, ?_, ?_, ?_, hlast'⟩
    · rw [if_neg (fun h0 => hempty (length_eq_zero_iff.1 h0))]
      exact bind_ok.2 ⟨(), _, rfl, bind_ok.2 ⟨_, _, rfl, bind_ok.2
        ⟨(), _, assert_ok.2 ⟨decide_eq_true hlt, rfl⟩, bind_ok.2 ⟨(), _, rfl, hrecord⟩⟩⟩⟩
    · intro e he
      rcases mem_append.1 he with he | he
      · exact h.encodes e he
      · rw [mem_singleton.1 he]
        exact hencodes
    · rw [map_append, h.fst, shown_append, if_neg hempty]
      rfl
    · rw [map_append, h.pcs]
      rfl
    · rw [hstarts, map_append, h.pointers]
      rfl
    · intro p hp
      rw [hstarts, mem_append, mem_singleton] at hp
      rcases hp with hp | rfl
      · exact h.starts_lt p hp
      · exact hlt
    · rw [map_append, h.data]
      simp

theorem push_panics (h : Represents maps s entries) (hv : ValidMap m)
    (hlast : ∀ m' ∈ maps, m'.codeOffset ≤ m.codeOffset) (hne : m.frameOffsets ≠ [])
    (hsize : u32Size ≤ size maps) :
    (StackMapSection.push m.codeOffset m.frameSize m.frameOffsets s).1.isPanic = true := by
  have hcode : m.codeOffset < u32Size := by
    have := hv.codeOffset
    unfold u32Max at this
    unfold u32Size
    omega
  have hlen : ¬ m.frameOffsets.length = 0 := fun h0 => hne (length_eq_zero_iff.1 h0)
  have hdata : ¬ s.stackMapData.length < u32Size := by
    rw [h.length_data]
    omega
  have hle := h.last _ hlast
  simp [StackMapSection.push, StackMapSection.pushMap, run_bind, assert, hcode, hle,
    hlen, hdata, Prog.get, Prog.modify, Prog.panic, Outcome.isPanic]

/-! ### Sequences of pushes -/

variable {rest : List PushedMap}

theorem Valid.step (h : Valid (maps ++ m :: rest)) :
    ValidMap m ∧ ∀ m' ∈ maps, m'.codeOffset ≤ m.codeOffset := by
  refine ⟨h.map m (by simp), fun m' hm' => ?_⟩
  exact ((pairwise_append.1 h.ascending).2.2 m' hm' m mem_cons_self).le

theorem Represents.pushAll_run (h : Represents maps s entries) (hv : Valid (maps ++ rest))
    (hf : FitsFrom (size maps) rest) :
    ∃ s' entries', pushAll rest s = (.ok (), s') ∧ Represents (maps ++ rest) s' entries' := by
  induction rest generalizing maps s entries with
  | nil => exact ⟨s, entries, rfl, by rwa [append_nil]⟩
  | cons m rest ih =>
    obtain ⟨hm, hle⟩ := hv.step
    obtain ⟨s1, entries1, hpush, h1⟩ := push_run h hm hle hf.1
    have hsplit : maps ++ m :: rest = (maps ++ [m]) ++ rest := by simp
    have hsize : size (maps ++ [m]) = size maps + dataSize m := by
      rw [size_append]
      rfl
    obtain ⟨s2, entries2, hrun, h2⟩ := ih h1 (hsplit ▸ hv) (hsize ▸ hf.2)
    exact ⟨s2, entries2, bind_ok.2 ⟨(), s1, hpush, hrun⟩, hsplit ▸ h2⟩

theorem Represents.pushAll_panics (h : Represents maps s entries) (hv : Valid (maps ++ rest))
    (hf : ¬ FitsFrom (size maps) rest) : (pushAll rest s).1.isPanic = true := by
  induction rest generalizing maps s entries with
  | nil => exact absurd trivial hf
  | cons m rest ih =>
    obtain ⟨hm, hle⟩ := hv.step
    by_cases hhere : m.frameOffsets ≠ [] → size maps < u32Size
    · obtain ⟨s1, entries1, hpush, h1⟩ := push_run h hm hle hhere
      have hsplit : maps ++ m :: rest = (maps ++ [m]) ++ rest := by simp
      have hsize : size (maps ++ [m]) = size maps + dataSize m := by
        rw [size_append]
        rfl
      rw [pushAll, run_bind_ok hpush]
      exact ih h1 (hsplit ▸ hv) fun hrest => hf ⟨hhere, hsize ▸ hrest⟩
    · rw [Classical.not_imp, Nat.not_lt] at hhere
      exact isPanic_bind (push_panics h hm hle hhere.1 hhere.2)

theorem FitsFrom.length_lt {position count : Nat} (h : FitsFrom position maps)
    (hcount : 3 * count ≤ position) (hlt : count < u32Size) :
    count + (shown maps).length < u32Size := by
  induction maps generalizing position count with
  | nil => exact hlt
  | cons m maps ih =>
    obtain ⟨hm, hrest⟩ := h
    by_cases hempty : m.frameOffsets = []
    · have hshown : shown (m :: maps) = shown maps := by simp [shown, hempty]
      rw [hshown]
      exact ih hrest (by omega) hlt
    · have hshown : shown (m :: maps) = m :: shown maps := by simp [shown, hempty]
      have hthree := three_le_dataSize hempty
      have hposition := hm hempty
      have hnext : count + 1 + (shown maps).length < u32Size :=
        ih hrest (by omega) (by unfold u32Size at hposition ⊢; omega)
      rw [hshown, length_cons]
      omega

/-! ### Reading -/

structure Reads (m : PushedMap) (map : StackMap) : Prop where
  frameSize : map.frameSize = m.frameSize
  offsets : ∀ build, ∃ offsets, StackMap.offsets build map () = (.ok offsets, ()) ∧
    offsets.Pairwise (· < ·) ∧ ∀ o, o ∈ offsets ↔ o ∈ m.frameOffsets

theorem wordOffsets_run {i : Nat} {bs : List Nat} (h : ∀ b ∈ bs, (i * 32 + b) * 4 < u32Size) :
    StackMap.wordOffsets build i bs () = (.ok (bs.map fun b => (i * 32 + b) * 4), ()) := by
  induction bs with
  | nil => rfl
  | cons b bs ih =>
    have hb := h b mem_cons_self
    have hi : i % u32Size = i := Nat.mod_eq_of_lt (by omega)
    unfold StackMap.wordOffsets
    rw [hi]
    refine bind_ok.2 ⟨i * 32, (), mulU32_run (by omega), ?_⟩
    refine bind_ok.2 ⟨i * 32 + b, (), addU32_run (by omega), ?_⟩
    refine bind_ok.2 ⟨_, (), mulU32_run hb, ?_⟩
    exact bind_ok.2 ⟨_, (), ih fun b' hb' => h b' (mem_cons_of_mem _ hb'), rfl⟩

theorem scalarBits_new (w : BitVec 32) : StackMap.scalarBits (.new w.toNat) = bits w := by
  rw [StackMap.scalarBits, get_new w.isLt]
  simp

theorem offsetsFrom_run {k : Nat} {ws : List (BitVec 32)}
    (h : ∀ p ∈ positions k ws, p * 4 < u32Size) :
    StackMap.offsetsFrom build k (ws.map bits) () = (.ok ((positions k ws).map (· * 4)), ()) := by
  induction ws generalizing k with
  | nil => rfl
  | cons w ws ih =>
    unfold positions at h ⊢
    rw [map_cons, StackMap.offsetsFrom]
    refine bind_ok.2 ⟨_, (), wordOffsets_run fun b hb => ?_, ?_⟩
    · exact h _ (mem_append_left _ (mem_map_of_mem hb))
    · refine bind_ok.2 ⟨_, (), ih fun p hp => h p (mem_append_right _ hp), ?_⟩
      rw [map_append, map_map]
      rfl

theorem Encodes.reads (h : Encodes m record) (hv : ValidMap m) {data : List U32Bytes}
    {start : Nat} (hdata : ∃ rest, data.drop start = record ++ rest) :
    ∃ map, recordAt data start = some map ∧ Reads m map := by
  obtain ⟨ws, rfl, hbits, hsize⟩ := h
  obtain ⟨rest, hdrop⟩ := hdata
  have hmem : ∀ p, p ∈ positions 0 ws ↔ 4 * p ∈ m.frameOffsets := by
    intro p
    rw [mem_positions (by norm_num), ← hbits]
    simp [hasBit]
  have hcount : ws.length < u32Size := by
    unfold dataSize at hsize
    split at hsize
    · omega
    · rename_i greatest hmax
      have := (hv.offsets greatest (max?_eq_some_iff.1 hmax).1).1
      unfold u32Size at this ⊢
      omega
  have hstart : start ≤ data.length := by
    by_contra hgt
    rw [drop_eq_nil_of_le (by omega)] at hdrop
    cases hdrop
  refine ⟨⟨m.frameSize, ws.map fun w => .new w.toNat⟩, ?_, rfl, fun build => ?_⟩
  · unfold recordAt
    rw [if_pos hstart, hdrop]
    simp [get_new hcount, get_new hv.frameSize]
  · have hwords : (ws.map fun w => U32Bytes.new w.toNat).map StackMap.scalarBits = ws.map bits := by
      rw [map_map]
      refine map_congr_left fun w _ => ?_
      rw [Function.comp_apply, scalarBits_new]
    unfold StackMap.offsets
    rw [hwords]
    refine ⟨_, offsetsFrom_run fun p hp => ?_, ?_, fun o => ?_⟩
    · rw [Nat.mul_comm]
      exact (hv.offsets _ ((hmem p).1 hp)).1
    · exact (pairwise_positions ws).map _ fun a b hab => by omega
    · rw [mem_map]
      constructor
      · rintro ⟨p, hp, rfl⟩
        rw [Nat.mul_comm]
        exact (hmem p).1 hp
      · intro ho
        have hal := (hv.offsets o ho).2
        exact ⟨o / 4, (hmem _).2 (by rwa [show 4 * (o / 4) = o by omega]), by omega⟩

theorem getElem?_starts (k i : Nat) (rs : List (List U32Bytes)) (hi : i < rs.length) :
    (starts k rs)[i]? = some (k + (rs.take i).flatten.length) := by
  induction rs generalizing k i with
  | nil => cases hi
  | cons r rs ih =>
    cases i with
    | zero => simp [starts]
    | succ i =>
      rw [starts, getElem?_cons_succ, ih _ _ (by simpa using hi), take_succ_cons,
        flatten_cons, length_append, Nat.add_assoc]

theorem length_starts (k : Nat) (rs : List (List U32Bytes)) : (starts k rs).length = rs.length := by
  induction rs generalizing k with
  | nil => rfl
  | cons r rs ih => rw [starts, length_cons, ih, length_cons]

def StackMapSection.parsed (s : StackMapSection) : ParsedSection :=
  ⟨s.pcs, s.pointersToStackMap, s.stackMapData⟩

namespace Represents

variable (h : Represents maps s entries) (hv : Valid maps)

include h

variable {e : PushedMap × List U32Bytes}

theorem valid (hv : Valid maps) (he : e ∈ entries) : ValidMap e.1 := by
  have hmem : e.1 ∈ shown maps := h.fst ▸ mem_map_of_mem he
  exact hv.map _ (mem_of_mem_filter hmem)

/-- **The reader finds the record of every entry.** -/
theorem getEntry (hv : Valid maps) {i : Nat} (hi : entries[i]? = some e) :
    ∃ map, s.parsed.get i () = (.ok (some map), ()) ∧ Reads e.1 map := by
  obtain ⟨hlt, rfl⟩ := List.getElem?_eq_some_iff.1 hi
  have hlt' : i < (entries.map Prod.snd).length := by rwa [length_map]
  have hstart := getElem?_starts 0 i _ hlt'
  rw [Nat.zero_add] at hstart
  have hpos := h.starts_lt _ (mem_of_getElem? hstart)
  have hmem : entries[i] ∈ entries := getElem_mem hlt
  have hrecord : ∃ rest, s.stackMapData.drop ((entries.map Prod.snd).take i).flatten.length =
      entries[i].2 ++ rest := by
    refine ⟨((entries.map Prod.snd).drop (i + 1)).flatten, ?_⟩
    rw [h.data]
    conv_lhs => rw [← take_append_drop i (entries.map Prod.snd), flatten_append,
      take_append_drop, drop_left]
    rw [drop_eq_getElem_cons hlt', flatten_cons, getElem_map]
  obtain ⟨map, hmap, hreads⟩ := (h.encodes _ hmem).reads (h.valid hv hmem) hrecord
  refine ⟨map, ?_, hreads⟩
  refine bind_ok.2 ⟨.new ((entries.map Prod.snd).take i).flatten.length, (),
    unwrap_ok.2 ⟨?_, rfl⟩, ?_⟩
  · rw [StackMapSection.parsed, h.pointers, getElem?_map, hstart]
    rfl
  · rw [get_new hpos]
    exact congrArg (fun o => (Outcome.ok o, ())) hmap

theorem parse_append (hlt : s.pcs.length < u32Size) :
    ParsedSection.parse (bytesOfSlice [.new s.pcs.length] ++ (bytesOfSlice s.pcs ++
      (bytesOfSlice s.pointersToStackMap ++ bytesOfSlice s.stackMapData))) = some s.parsed := by
  have hpointers : s.pcs.length = s.pointersToStackMap.length := by
    rw [h.pcs, h.pointers, length_map, length_map, length_starts, length_map]
  unfold ParsedSection.parse
  rw [show 1 = [U32Bytes.new s.pcs.length].length from rfl, sliceFromBytes_append]
  dsimp only
  rw [get_new hlt, sliceFromBytes_append, Option.bind_some]
  rw [hpointers, sliceFromBytes_append, Option.bind_some]
  rw [sliceFromAllBytes_bytesOfSlice]
  rfl

variable (hv : Valid maps)
include hv

theorem codeOffset_lt (he : e ∈ entries) : e.1.codeOffset < u32Size := by
  have := (h.valid hv he).codeOffset
  unfold u32Max at this
  unfold u32Size
  omega

theorem map_get_pcs :
    s.parsed.pcs.map U32Bytes.get = (shown maps).map PushedMap.codeOffset := by
  rw [StackMapSection.parsed, h.pcs, ← h.fst, map_map, map_map]
  refine map_congr_left fun e he => ?_
  rw [Function.comp_apply, Function.comp_apply, get_new (h.codeOffset_lt hv he)]

theorem ascending : (s.parsed.pcs.map U32Bytes.get).Pairwise (· < ·) := by
  rw [h.map_get_pcs hv, pairwise_map]
  exact hv.ascending.sublist filter_sublist

theorem lookup_some (hm : m ∈ shown maps) :
    ∃ map, s.parsed.lookup m.codeOffset () = (.ok (some map), ()) ∧ Reads m map := by
  obtain ⟨i, hi⟩ := mem_iff_getElem?.1 hm
  have hentry := hi
  rw [← h.fst, getElem?_map, Option.map_eq_some_iff] at hentry
  obtain ⟨e, he, rfl⟩ := hentry
  obtain ⟨map, hmap, hreads⟩ := h.getEntry hv he
  have hsearch : binarySearch (s.parsed.pcs.map U32Bytes.get) e.1.codeOffset = some i := by
    rw [binarySearch_eq_some (h.ascending hv), h.map_get_pcs hv, getElem?_map, hi]
    rfl
  refine ⟨map, ?_, hreads⟩
  unfold ParsedSection.lookup
  rw [hsearch]
  exact hmap

theorem lookup_none {pc : Nat} (hpc : ∀ m ∈ shown maps, m.codeOffset ≠ pc) :
    s.parsed.lookup pc () = (.ok none, ()) := by
  have hsearch : binarySearch (s.parsed.pcs.map U32Bytes.get) pc = none := by
    rw [Option.eq_none_iff_forall_not_mem]
    intro i hi
    rw [Option.mem_def, binarySearch_eq_some (h.ascending hv), h.map_get_pcs hv] at hi
    obtain ⟨m, hm, hcode⟩ := mem_map.1 (mem_of_getElem? hi)
    exact hpc m hm hcode
  unfold ParsedSection.lookup
  rw [hsearch]
  rfl

theorem iterFrom_run {i : Nat} {rest : List (PushedMap × List U32Bytes)}
    (hrest : entries.drop i = rest) :
    ∃ found, s.parsed.iterFrom i (rest.map fun e => .new e.1.codeOffset) () = (.ok found, ()) ∧
      List.Forall₂ (fun m f => f.1 = m.codeOffset ∧ Reads m f.2) (rest.map Prod.fst) found := by
  induction rest generalizing i with
  | nil => exact ⟨[], rfl, .nil⟩
  | cons e rest ih =>
    have he : entries[i]? = some e := by
      rw [← Nat.add_zero i, ← getElem?_drop, hrest]
      rfl
    obtain ⟨map, hmap, hreads⟩ := h.getEntry hv he
    obtain ⟨found, hfound, hall⟩ := ih (i := i + 1) (by
      rw [← drop_drop, hrest]
      rfl)
    refine ⟨(e.1.codeOffset, map) :: found, ?_, .cons ⟨rfl, hreads⟩ hall⟩
    rw [map_cons, ParsedSection.iterFrom, get_new (h.codeOffset_lt hv (mem_of_getElem? he))]
    exact bind_ok.2 ⟨some map, (), hmap, bind_ok.2 ⟨map, (), rfl,
      bind_ok.2 ⟨found, (), hfound, rfl⟩⟩⟩

omit hv

end Represents

/-! ### The round trip -/

/-- **What is read from a section**: for the code offset of each map that was pushed with an
offset its frame size and offsets, for other code offsets nothing, and from the iterator the
same maps in the order of the pushes. -/
structure RoundTrip (maps : List PushedMap) (bytes : List UInt8) : Prop where
  found : ∀ m ∈ maps, m.frameOffsets ≠ [] →
    ∃ map, StackMap.lookup m.codeOffset bytes () = (.ok (some map), ()) ∧ Reads m map
  notFound : ∀ pc, (∀ m ∈ maps, m.frameOffsets ≠ [] → m.codeOffset ≠ pc) →
    StackMap.lookup pc bytes () = (.ok none, ())
  iter : ∃ found, StackMap.iter bytes () = (.ok found, ()) ∧
    List.Forall₂ (fun m f => f.1 = m.codeOffset ∧ Reads m f.2) (shown maps) (found.getD [])

theorem mem_shown {maps : List PushedMap} : m ∈ shown maps ↔ m ∈ maps ∧ m.frameOffsets ≠ [] := by
  simp [shown, mem_filter]

theorem roundTrip_nil (h : shown maps = []) : RoundTrip maps [] := by
  refine ⟨fun m hm hne => ?_, fun _ _ => rfl, none, rfl, ?_⟩
  · have := mem_shown.2 ⟨hm, hne⟩
    rw [h] at this
    cases this
  · rw [h]
    exact .nil

theorem Represents.roundTrip (h : Represents maps s entries) (hv : Valid maps)
    {bytes : List UInt8} (hparse : ParsedSection.parse bytes = some s.parsed) :
    RoundTrip maps bytes := by
  refine ⟨fun m hm hne => ?_, fun pc hpc => ?_, ?_⟩
  · obtain ⟨map, hmap, hreads⟩ := h.lookup_some hv (mem_shown.2 ⟨hm, hne⟩)
    refine ⟨map, ?_, hreads⟩
    rw [StackMap.lookup, hparse]
    exact hmap
  · rw [StackMap.lookup, hparse]
    refine h.lookup_none hv fun m hm => ?_
    obtain ⟨hmem, hne⟩ := mem_shown.1 hm
    exact hpc m hmem hne
  · obtain ⟨found, hfound, hall⟩ := h.iterFrom_run hv (i := 0) drop_zero
    rw [← h.pcs] at hfound
    refine ⟨some found, ?_, h.fst ▸ hall⟩
    rw [StackMap.iter, hparse]
    exact bind_ok.2 ⟨found, (), hfound, rfl⟩

theorem writeSection_panics (hv : Valid maps) (hf : ¬ Fits maps) :
    (writeSection maps .empty).1.isPanic = true :=
  isPanic_bind (Represents.empty.pushAll_panics hv hf)

/-- **Stack maps are read as they were written**, and a sequence of maps is written exactly if
every record begins at a position that a `u32` holds. -/
theorem writeSection_roundTrip (maps : List PushedMap) (hv : Valid maps) :
    (Fits maps → ∃ bytes s, writeSection maps .empty = (.ok bytes, s) ∧
      (bytes = none ↔ ∀ m ∈ maps, m.frameOffsets = []) ∧ RoundTrip maps (bytes.getD [])) ∧
    (¬ Fits maps → (writeSection maps .empty).1.isPanic = true) := by
  refine ⟨fun hf => ?_, writeSection_panics hv⟩
  obtain ⟨s, entries, hpush, h⟩ := Represents.empty.pushAll_run hv hf
  rw [nil_append] at h
  have hlen : s.pcs.length = (shown maps).length := by
    rw [h.pcs, ← h.fst, length_map, length_map]
  have hwrite : writeSection maps .empty = s.appendTo s := run_bind_ok hpush
  have hnone : shown maps = [] ↔ ∀ m ∈ maps, m.frameOffsets = [] := by
    simp [shown, filter_eq_nil_iff]
  rw [hwrite]
  unfold StackMapSection.appendTo
  by_cases hempty : shown maps = []
  · have hpcs : s.pcs.isEmpty = true := by
      rw [List.isEmpty_iff, ← length_eq_zero_iff, hlen, hempty]
      rfl
    rw [if_pos hpcs]
    exact ⟨none, s, rfl, ⟨fun _ => hnone.1 hempty, fun _ => rfl⟩, roundTrip_nil hempty⟩
  · have hpcs : ¬ s.pcs.isEmpty = true := by
      rw [List.isEmpty_iff, ← length_eq_zero_iff, hlen, length_eq_zero_iff]
      exact hempty
    have hcount : s.pcs.length < u32Size := by
      have hshown : 0 + (shown maps).length < u32Size :=
        FitsFrom.length_lt hf (Nat.le_refl 0) (by decide)
      omega
    rw [if_neg hpcs]
    refine ⟨_, s, bind_ok.2 ⟨(), s, assert_ok.2 ⟨decide_eq_true hcount, rfl⟩, rfl⟩,
      ⟨nofun, fun hall => absurd (hnone.2 hall) hempty⟩, ?_⟩
    exact h.roundTrip hv (h.parse_append hcount)

def sampleMaps : List PushedMap := [⟨0, 10, [24, 0, 4, 24]⟩, ⟨4, 100, []⟩, ⟨7, 98, [1000, 96]⟩]

theorem valid_sampleMaps : Valid sampleMaps := by
  refine ⟨fun m hm => ?_, by decide⟩
  simp only [sampleMaps, mem_cons, not_mem_nil, or_false] at hm
  rcases hm with rfl | rfl | rfl
  · exact ⟨by decide, by decide, by decide⟩
  · exact ⟨by decide, by decide, by decide⟩
  · exact ⟨by decide, by decide, by decide⟩

theorem writeSection_roundTrip_sample :
    ∃ bytes s, writeSection sampleMaps .empty = (.ok bytes, s) ∧
      (bytes = none ↔ ∀ m ∈ sampleMaps, m.frameOffsets = []) ∧
      RoundTrip sampleMaps (bytes.getD []) :=
  (writeSection_roundTrip sampleMaps valid_sampleMaps).1 (by decide +kernel)

/-- Maps of frames of four gigabytes, each with one slot at the end of its frame. -/
def distantMaps : List PushedMap := (List.range 129).map fun i => ⟨i, 4294967295, [4294967292]⟩

theorem valid_distantMaps : Valid distantMaps := by
  constructor
  · intro m hm
    obtain ⟨i, hi, rfl⟩ := mem_map.1 hm
    have hlt := mem_range.1 hi
    exact ⟨by dsimp only; unfold u32Max; omega, by dsimp only; decide, by dsimp only; decide⟩
  · exact pairwise_map.2 pairwise_lt_range

/-- The record of the last of these maps would begin at a position that is not a `u32`. -/
theorem writeSection_distantMaps : Valid distantMaps ∧
    ¬ ∃ bytes s, writeSection distantMaps .empty = (.ok bytes, s) := by
  refine ⟨valid_distantMaps, fun ⟨bytes, s, hrun⟩ => ?_⟩
  have hpanic := writeSection_panics valid_distantMaps (by decide +kernel)
  rw [hrun] at hpanic
  cases hpanic

end Wasmtime.Environ
