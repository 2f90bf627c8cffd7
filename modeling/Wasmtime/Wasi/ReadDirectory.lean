import Wasmtime.Wasi.Sinks

/-!
# Reading a directory

The task behind `read_directory` writes the entries of a directory to a stream, one at a time, until
the enumeration ends, an entry cannot be read or the reader drops its end. All this stands in a
second loop, which only an error leaves; it is given a number of rounds. The reader is a list of
reads, each of some number of items, and of drops.

* `run_received`: what the reader has received, and how the run stands, after any number of rounds
  over a directory without errors.
* `taken_prefix`: when the entries taken from an endless repetition of a list are a prefix of the
  list.
-/

namespace Wasmtime.Wasi

open Base Prog List

/-! ### The task -/

inductive DescriptorType where
  | directory
  | symbolicLink
  | blockDevice
  | characterDevice
  | regularFile
  | unknown
deriving DecidableEq

structure FileType where
  isDir : Bool
  isSymlink : Bool
  isBlockDevice : Bool
  isCharDevice : Bool
  isFile : Bool

def DescriptorType.from (ft : FileType) : DescriptorType :=
  if ft.isDir then
    .directory
  else if ft.isSymlink then
    .symbolicLink
  else if ft.isBlockDevice then
    .blockDevice
  else if ft.isCharDevice then
    .characterDevice
  else if ft.isFile then
    .regularFile
  else
    .unknown

/-- An entry of the enumeration; its name may not be Unicode. -/
structure DirEntry where
  metadata : Except Nat FileType
  fileName : Option String

structure DirectoryEntry where
  type : DescriptorType
  name : String
deriving DecidableEq

/-- The enumeration of a directory: an error, or a list of entries and errors. -/
abbrev Dir := Except Nat (List (Except Nat DirEntry))

def directoryEntry (res : Except Nat DirEntry) : Except ErrorCode DirectoryEntry :=
  match res with
  | .error code => .error (.os code)
  | .ok entry =>
    match entry.metadata with
    | .error code => .error (.os code)
    | .ok ft =>
      match entry.fileName with
      | none => .error .illegalByteSequence
      | some name => .ok ⟨.from ft, name⟩

/-- What the reader does next: a read of some number of items, or it drops its end. -/
inductive Read where
  | items (count : Nat)
  | drop
deriving DecidableEq

structure Listing where
  reads : List Read
  closed : Bool
  received : List DirectoryEntry
  enumerations : Nat
  dropped : Bool

def Listing.new (reads : List Read) : Listing := ⟨reads, false, [], 0, false⟩

/-- The reader has not answered a write yet, or the rounds are used up. -/
inductive Unfinished where
  | waiting
  | rounds

/-- `StreamWriter::write` of a buffer: a read takes as many items as both sides have, none
included, and what it leaves is given back; a reader that is gone takes nothing. -/
def Listing.write (buffer : List DirectoryEntry) :
    Prog Listing Unfinished (List DirectoryEntry) := do
  let l ← Prog.get
  if l.closed then
    pure buffer
  else
    match l.reads with
    | [] => Prog.err .waiting
    | .items count :: reads => do
      Prog.set { l with reads, received := l.received ++ buffer.take count }
      pure (buffer.drop count)
    | .drop :: reads => do
      Prog.set { l with reads, closed := true }
      pure buffer

def writeEntries : List (Except Nat DirEntry) → Prog Listing Unfinished Result
  | [] => pure (.ok ())
  | res :: tail =>
    match directoryEntry res with
    | .error err => pure (.error err)
    | .ok entry => do
      -- The buffer that comes back is not looked at.
      let _ ← Listing.write [entry]
      let l ← Prog.get
      if l.closed then
        pure (.ok ())
      else
        writeEntries tail

def enumerate (dir : Dir) : Unit → Prog Listing Unfinished (Unit ⊕ Result)
  | () => do
    Prog.modify fun l => { l with enumerations := l.enumerations + 1 }
    match dir with
    | .error code => pure (.inr (.error (.os code)))
    | .ok entries => do
      match ← writeEntries entries with
      | .error err => pure (.inr (.error err))
      | .ok () => pure (.inl ())

/-- `ReadDirectoryTask::run`; the result is what is written to the future. -/
def ReadDirectoryTask.run (dir : Dir) (rounds : Nat) : Prog Listing Unfinished Result := do
  let res ← loop .rounds (enumerate dir) rounds ()
  Prog.modify fun l => { l with dropped := true }
  pure res

/-! ### Taking from a list -/

/-- The items that a reader takes from a list that is offered to it one by one. -/
def taken {α : Type} : List α → List Read → List α
  | e :: es, .items count :: reads => [e].take count ++ taken es reads
  | _, _ => []

/-- The `k`-th offer of `length` items in turn, of which `j` were taken: each item is taken
in its turn. -/
def inTurn (length : Nat) : Nat → Nat → List Read → Bool
  | _, _, [] => true
  | k, j, .items count :: reads =>
    if count = 0 then
      inTurn length (k + 1) j reads
    else
      k % length == j && inTurn length (k + 1) (j + 1) reads
  | _, _, .drop :: _ => true

section Taken

variable {α : Type} {reads : List Read}

@[simp] theorem taken_nil (es : List α) : taken es [] = [] := by
  cases es <;> rfl

@[simp] theorem taken_drop (es : List α) : taken es (.drop :: reads) = [] := by
  cases es <;> rfl

theorem taken_append (es es' : List α) (reads : List Read) :
    taken (es ++ es') reads = taken es reads ++
      if .drop ∈ reads.take es.length then [] else taken es' (reads.drop es.length) := by
  induction es generalizing reads with
  | nil => simp [taken]
  | cons e es ih =>
    cases reads with
    | nil => simp
    | cons read reads =>
      cases read with
      | items count => simp [taken, ih]
      | drop => simp

theorem getElem?_flatten_replicate (list : List α) {rounds k : Nat}
    (hk : k < rounds * list.length) :
    (List.replicate rounds list).flatten[k]? = list[k % list.length]? := by
  induction rounds generalizing k with
  | zero => omega
  | succ rounds ih =>
    rw [replicate_succ, flatten_cons]
    by_cases hlt : k < list.length
    · rw [getElem?_append_left hlt, Nat.mod_eq_of_lt hlt]
    · have hle : list.length ≤ k := Nat.le_of_not_lt hlt
      rw [Nat.succ_mul] at hk
      rw [getElem?_append_right hle, ih (by omega), Nat.mod_eq_sub_mod hle]

/-- **Prefixes**: of a list without repetitions that is offered over and over, a reader takes a
prefix just if it takes each item in its turn. -/
theorem taken_prefix {list : List α} (hlist : list.Nodup) {rounds k j : Nat}
    (hk : k + reads.length ≤ rounds * list.length) (hj : j ≤ list.length) :
    taken ((List.replicate rounds list).flatten.drop k) reads <+: list.drop j ↔
      inTurn list.length k j reads = true := by
  induction reads generalizing k j with
  | nil => simp [inTurn]
  | cons read reads ih =>
    cases read with
    | drop => simp [inTurn]
    | items count =>
      rw [length_cons] at hk
      have hpos : 0 < list.length := by
        rcases Nat.eq_zero_or_pos list.length with h0 | h0
        · rw [h0] at hk
          omega
        · exact h0
      have hmod : k % list.length < list.length := Nat.mod_lt k hpos
      have hoffer := getElem?_flatten_replicate list (show k < rounds * list.length by omega)
      rw [getElem?_eq_getElem hmod] at hoffer
      obtain ⟨hlt, hget⟩ := List.getElem?_eq_some_iff.1 hoffer
      rw [drop_eq_getElem_cons hlt, hget, taken, inTurn]
      by_cases hcount : count = 0
      · rw [if_pos hcount, hcount, take_zero, nil_append]
        exact ih (by omega) hj
      · rw [if_neg hcount, take_of_length_le (by simp only [length_singleton]; omega)]
        by_cases hfull : j = list.length
        · simp [hfull, Nat.ne_of_lt hmod]
        · have hlt' : j < list.length := by omega
          rw [drop_eq_getElem_cons hlt', singleton_append, cons_prefix_cons,
            hlist.getElem_inj_iff, ih (by omega) (by omega)]
          simp

end Taken

/-! ### Runs -/

section Runs

variable {dir : List (Except Nat DirEntry)} {list : List DirectoryEntry} {l : Listing}

theorem writeEntries_closed (h : dir.map directoryEntry = list.map .ok)
    (hclosed : l.closed = true) : writeEntries dir l = (.ok (.ok ()), l) := by
  cases dir with
  | nil => rfl
  | cons res tail =>
    cases list with
    | nil => simp at h
    | cons entry list =>
      have hres : directoryEntry res = .ok entry := (List.cons.inj h).1
      simp only [writeEntries, hres]
      simp [run_bind, Listing.write, Prog.get, hclosed]

theorem write_wp {entry : DirectoryEntry} {Q : List DirectoryEntry → Listing → Prop}
    {E : Unfinished → Listing → Prop} (hopen : l.closed = false)
    (hnil : l.reads = [] → E .waiting l)
    (hitems : ∀ count reads, l.reads = .items count :: reads →
      Q ([entry].drop count) { l with reads, received := l.received ++ [entry].take count })
    (hdrop : ∀ reads, l.reads = .drop :: reads → Q [entry] { l with reads, closed := true }) :
    wp (Listing.write [entry]) Q E l := by
  unfold Listing.write
  rw [wp_bind, wp_get, if_neg (by simp [hopen])]
  rcases hreads : l.reads with _ | ⟨count | _, reads⟩
  · exact hnil hreads
  · exact hitems count reads hreads
  · exact hdrop reads hreads

variable (h : dir.map directoryEntry = list.map .ok)
include h

theorem writeEntries_wp (hopen : l.closed = false) :
    wp (writeEntries dir) (fun r l' => r = .ok () ∧ l'.enumerations = l.enumerations ∧
        l'.received = l.received ++ taken list l.reads ∧
        (l'.closed = true ∧ .drop ∈ l.reads.take list.length ∨
          l'.closed = false ∧ .drop ∉ l.reads.take list.length ∧
            list.length ≤ l.reads.length ∧ l'.reads = l.reads.drop list.length))
      (fun e l' => e = .waiting ∧ l'.received = l.received ++ taken list l.reads ∧
        .drop ∉ l.reads ∧ l.reads.length < list.length) l := by
  induction dir generalizing list l with
  | nil =>
    cases list with
    | nil => exact ⟨rfl, rfl, by simp [taken], .inr ⟨hopen, by simp, Nat.zero_le _, rfl⟩⟩
    | cons entry list => simp at h
  | cons res tail ih =>
    cases list with
    | nil => simp at h
    | cons entry list =>
      obtain ⟨hres, htail⟩ := List.cons.inj h
      simp only [writeEntries, hres]
      rw [wp_bind]
      refine write_wp hopen ?_ ?_ ?_
      · intro hreads
        rw [hreads]
        exact ⟨rfl, by simp, by simp, by simp⟩
      · intro count reads hreads
        rw [wp_bind, wp_get, if_neg (by simp [hopen])]
        refine wp_mono (ih htail hopen) ?_ ?_
        · rintro r l' ⟨hr, henum, hrec, hend⟩
          refine ⟨hr, henum, by simp [hrec, hreads, taken], ?_⟩
          simpa [hreads] using hend
        · rintro e l' ⟨he, hrec, hdrop, hlen⟩
          exact ⟨he, by simp [hrec, hreads, taken], by simpa [hreads] using hdrop,
            by simpa [hreads] using hlen⟩
      · intro reads hreads
        rw [wp_bind, wp_get, if_pos rfl]
        exact ⟨rfl, rfl, by simp [hreads], .inl ⟨rfl, by simp [hreads]⟩⟩

theorem loop_closed (hclosed : l.closed = true)
    (rounds : Nat) :
    wp (loop .rounds (enumerate (.ok dir)) rounds ()) (fun _ _ => False)
      (fun e l' => e = .rounds ∧ l'.received = l.received ∧
        l'.enumerations = l.enumerations + rounds) l := by
  induction rounds generalizing l with
  | zero => exact ⟨rfl, rfl, rfl⟩
  | succ rounds ih =>
    unfold loop enumerate
    simp only [wp_bind, wp_modify]
    unfold wp
    rw [writeEntries_closed h (by exact hclosed)]
    refine wp_mono (ih (by exact hclosed)) (fun _ _ h => h) ?_
    rintro e l' ⟨he, hrec, henum⟩
    exact ⟨he, hrec, by rw [henum]; dsimp only; omega⟩

theorem loop_wp (hopen : l.closed = false)
    (rounds : Nat) :
    wp (loop .rounds (enumerate (.ok dir)) rounds ()) (fun _ _ => False)
      (fun e l' => l'.received = l.received ++ taken (List.replicate rounds list).flatten l.reads ∧
        (e = .waiting ∧ .drop ∉ l.reads ∧ l.reads.length < rounds * list.length ∨
          e = .rounds ∧ l'.enumerations = l.enumerations + rounds ∧
            (.drop ∈ l.reads ∨ rounds * list.length ≤ l.reads.length))) l := by
  induction rounds generalizing l with
  | zero => exact ⟨by simp [taken], .inr ⟨rfl, rfl, .inr (by omega)⟩⟩
  | succ rounds ih =>
    rw [replicate_succ, flatten_cons, taken_append, Nat.succ_mul]
    unfold loop enumerate
    simp only [wp_bind, wp_modify]
    refine wp_mono (writeEntries_wp h (by exact hopen)) ?_ ?_
    · rintro r l' ⟨rfl, henum, hrec, ⟨hclosed, hdrop⟩ | ⟨hopen', hdrop, hlen, hreads⟩⟩
      · change wp (loop .rounds (enumerate (.ok dir)) rounds ()) _ _ l'
        refine wp_mono (loop_closed h hclosed rounds) (fun _ _ h => h) ?_
        rintro e l2 ⟨rfl, hrec2, henum2⟩
        refine ⟨by rw [hrec2, hrec, if_pos hdrop, append_nil], .inr ⟨rfl, ?_, .inl ?_⟩⟩
        · rw [henum2, henum]
          dsimp only
          omega
        · exact mem_of_mem_take hdrop
      · change wp (loop .rounds (enumerate (.ok dir)) rounds ()) _ _ l'
        refine wp_mono (ih hopen') (fun _ _ h => h) ?_
        rintro e l2 ⟨hrec2, hend⟩
        have hmem : Read.drop ∈ l'.reads ↔ Read.drop ∈ l.reads := by
          rw [hreads]
          refine ⟨mem_of_mem_drop, fun hin => ?_⟩
          rw [← take_append_drop list.length l.reads, mem_append] at hin
          exact hin.resolve_left hdrop
        have hlen' : l'.reads.length + list.length = l.reads.length := by
          rw [hreads, length_drop]
          dsimp only at hlen ⊢
          omega
        refine ⟨?_, ?_⟩
        · rw [hrec2, hrec, if_neg hdrop, hreads, append_assoc]
        · rw [hmem, henum] at hend
          dsimp only at hend
          refine hend.imp (fun ⟨he, hd, hl⟩ => ⟨he, hd, by omega⟩) fun ⟨he, hn, hl⟩ => ?_
          exact ⟨he, by omega, hl.imp id fun hl => by omega⟩
    · rintro e l' ⟨rfl, hrec, hdrop, hlen⟩
      refine ⟨?_, .inl ⟨rfl, hdrop, by dsimp only at hlen; omega⟩⟩
      have hdrop' : Read.drop ∉ l.reads.take list.length := fun hin =>
        hdrop (mem_of_mem_take hin)
      rw [hrec, if_neg hdrop', drop_of_length_le (by dsimp only at hlen; omega), taken_nil,
        append_nil]

/-- **Runs over a directory without errors**: the task waits for its reader, or has enumerated
the directory once in every round. -/
theorem run_received (reads : List Read)
    (rounds : Nat) :
    let o := ReadDirectoryTask.run (.ok dir) rounds (.new reads)
    o.2.received = taken (List.replicate rounds list).flatten reads ∧
      (o.1 = .err .waiting ∧ .drop ∉ reads ∧ reads.length < rounds * list.length ∨
        o.1 = .err .rounds ∧ o.2.enumerations = rounds ∧
          (.drop ∈ reads ∨ rounds * list.length ≤ reads.length)) := by
  obtain ⟨e, l', hrun, hrec, hend⟩ :=
    exists_err_of_wp (loop_wp (l := .new reads) h rfl rounds)
  unfold ReadDirectoryTask.run
  rw [run_bind_err hrun]
  refine ⟨hrec, hend.imp (fun ⟨he, hd, hl⟩ => ⟨by rw [he], hd, hl⟩) fun ⟨he, hn, hl⟩ => ?_⟩
  exact ⟨by rw [he], by simpa [Listing.new] using hn, hl⟩

omit h

/-- **Reading a directory**: over a directory without errors the task never ends, and enumerates
the directory again in every round for which its reader takes part; of entries that are all
different the reader has a prefix just if it took each in its turn. -/
theorem run_never_ends (h : dir.map directoryEntry = list.map .ok) (reads : List Read)
    (rounds : Nat) :
    let o := ReadDirectoryTask.run (.ok dir) rounds (.new reads)
    (o.1 = .err .waiting ∧ .drop ∉ reads ∧ reads.length < rounds * list.length ∨
      o.1 = .err .rounds ∧ o.2.enumerations = rounds ∧
        (.drop ∈ reads ∨ rounds * list.length ≤ reads.length)) ∧
    (list.Nodup → reads.length ≤ rounds * list.length →
      (o.2.received <+: list ↔ inTurn list.length 0 0 reads = true)) := by
  intro o
  obtain ⟨hrec, hend⟩ := run_received h reads rounds
  refine ⟨hend, fun hlist hlen => ?_⟩
  have hprefix : taken ((List.replicate rounds list).flatten.drop 0) reads <+: list.drop 0 ↔
      inTurn list.length 0 0 reads = true := taken_prefix hlist (by omega) (Nat.zero_le _)
  rwa [drop_zero, drop_zero, ← hrec] at hprefix

end Runs

section Sample

def sampleFile (name : String) : Except Nat DirEntry :=
  .ok ⟨.ok ⟨false, false, false, false, true⟩, some name⟩

def sampleEntry (name : String) : DirectoryEntry := ⟨.regularFile, name⟩

theorem directoryEntry_sample : [sampleFile "a", sampleFile "b"].map directoryEntry =
    [sampleEntry "a", sampleEntry "b"].map .ok := rfl

theorem run_never_ends_sample :
    let o := ReadDirectoryTask.run (.ok [sampleFile "a", sampleFile "b"]) 3 (.new [.items 1, .drop])
    o.2.received <+: [sampleEntry "a", sampleEntry "b"] ↔ inTurn 2 0 0 [.items 1, .drop] = true :=
  (run_never_ends directoryEntry_sample [.items 1, .drop] 3).2 (by decide) (by decide)

/-- A reader that goes on reading gets the entries again, one that reads nothing once loses an
entry, and for neither does the task end. -/
theorem run_entries_again :
    (∀ reads rounds, (ReadDirectoryTask.run (.ok [sampleFile "a", sampleFile "b"]) rounds
      (.new reads)).1.isOk = false) ∧
    (ReadDirectoryTask.run (.ok [sampleFile "a", sampleFile "b"]) 2
      (.new [.items 1, .items 1, .items 1])).2.received =
        [sampleEntry "a", sampleEntry "b", sampleEntry "a"] ∧
    (ReadDirectoryTask.run (.ok [sampleFile "a", sampleFile "b"]) 2
      (.new [.items 0, .items 1])).2.received = [sampleEntry "b"] := by
  refine ⟨fun reads rounds => ?_, by decide +kernel, by decide +kernel⟩
  obtain ⟨-, ⟨he, -⟩ | ⟨he, -⟩⟩ := run_received directoryEntry_sample reads rounds
  · rw [he]
    rfl
  · rw [he]
    rfl

end Sample

end Wasmtime.Wasi
