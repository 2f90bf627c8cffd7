import Wasmtime.Http.Body

/-!
# Runs of bodies

`Stored` lists the forms in which a task puts a body back, with how far the contents have been read,
over any number of readers (`run_stored`).

* `corrupted_iff`: which consumers call a body corrupted.
* `contentLength_counted`: which bodies pass the check of their `Content-Length`.
-/

namespace Wasmtime.Http

open Base Prog List Nat

/-! ### Reading and writing -/

section Streams

variable {w : World}

theorem answer_wp {Q : Answer → World → Prop} {E : Stop → World → Prop}
    (hnil : w.answers = [] → E .pending w)
    (hcons : ∀ a answers, w.answers = a :: answers → Q a { w with answers }) :
    wp answer Q E w := by
  unfold answer
  rw [wp_bind, wp_get]
  cases hans : w.answers with
  | nil => exact hnil hans
  | cons a answers => exact hcons a answers hans

theorem readGuest_wp {Q : Option Bytes → World → Prop} {E : Stop → World → Prop}
    (hchunk : ∀ chunk chunks, w.guest.chunks = chunk :: chunks →
      Q (some chunk) { w with guest := { w.guest with chunks }, read := w.read ++ chunk })
    (hend : w.guest.chunks = [] → w.guest.ended = true → Q none w)
    (hwait : w.guest.chunks = [] → w.guest.ended = false → E .pending w) :
    wp readGuest Q E w := by
  unfold readGuest
  rw [wp_bind, wp_get]
  cases hchunks : w.guest.chunks with
  | cons chunk chunks => exact hchunk chunk chunks hchunks
  | nil =>
    rw [wp_ite]
    exact ⟨hend hchunks, fun h => hwait hchunks (Bool.eq_false_iff.2 h)⟩

/-- A reader that reads at least a byte every time, and never leaves. -/
def Reading (answers : List Answer) : Prop := ∀ a ∈ answers, ∃ count, a = .go (count + 1)

theorem Reading.of_cons {a : Answer} {answers : List Answer} (h : Reading (a :: answers)) :
    (∃ count, a = .go (count + 1)) ∧ Reading answers :=
  ⟨h a (.head _), fun b hb => h b (.tail _ hb)⟩

theorem Reading.not_drop {answers : List Answer} : ¬ Reading (.drop :: answers) := by
  intro h
  obtain ⟨count, hcount⟩ := h.of_cons.1
  cases hcount

/-- A write passes on the first bytes of the buffer and returns the others, of which there are
none unless the reader left. For a reader that goes on reading it takes no more answers than
there are bytes. -/
theorem writeAll_wp (buffer : Bytes) : wp (writeAll buffer)
      (fun r w' => ∃ k answers, r.1 = buffer.drop k ∧ (r.2 = false → r.1 = []) ∧
        w' = { w with answers, received := w.received ++ buffer.take k } ∧
        answers.length ≤ w.answers.length ∧
        (Reading w.answers → r.2 = false ∧ Reading answers ∧
          w.answers.length ≤ answers.length + buffer.length))
      (fun e _ => e = .pending ∧ ¬ (Reading w.answers ∧ buffer.length ≤ w.answers.length)) w := by
  unfold writeAll
  rw [wp_bind, wp_get]
  refine wp_loop (fun rest t => ∃ k answers, rest = buffer.drop k ∧
      t = { w with answers, received := w.received ++ buffer.take k } ∧
      answers.length ≤ w.answers.length ∧
      (Reading w.answers → Reading answers ∧
        w.answers.length + rest.length ≤ answers.length + buffer.length))
    (fun _ t => t.answers.length) ?_
    ⟨0, w.answers, rfl, by simp, le_rfl, fun h => ⟨h, le_rfl⟩⟩ (lt_succ_self _)
  rintro rest t ⟨k, answers, rfl, rfl, hlen, hreading⟩
  rw [wp_ite]
  refine ⟨fun hempty => ?_, fun hrest => ?_⟩
  · rw [wp_pure]
    have hnil : buffer.drop k = [] := List.isEmpty_iff.1 hempty
    refine ⟨k, answers, rfl, fun _ => hnil, rfl, hlen, fun h => ?_⟩
    obtain ⟨hr, hcount⟩ := hreading h
    exact ⟨rfl, hr, by omega⟩
  · have hpos : 0 < (buffer.drop k).length := by
      rw [length_pos_iff]
      exact fun h => hrest (by rw [h]; rfl)
    rw [wp_bind]
    refine answer_wp ?_ ?_
    · rintro (rfl : answers = [])
      refine ⟨rfl, fun ⟨h, hle⟩ => ?_⟩
      have hcount := (hreading h).2
      rw [length_nil] at hcount
      omega
    · rintro a answers' (rfl : answers = a :: answers')
      rw [length_cons] at hlen
      cases a with
      | drop =>
        exact ⟨k, answers', rfl, fun h => absurd h (by simp), rfl, by omega,
          fun h => absurd (hreading h).1 Reading.not_drop⟩
      | go count =>
        rw [wp_bind, wp_modify, wp_pure]
        refine ⟨⟨k + count, answers', by rw [drop_drop], ?_, by omega, fun h => ?_⟩, lt_succ_self _⟩
        · rw [append_assoc, take_add]
        · obtain ⟨hr, hcount⟩ := hreading h
          obtain ⟨⟨c, hc⟩, hr'⟩ := hr.of_cons
          cases hc
          rw [length_cons] at hcount
          refine ⟨hr', ?_⟩
          rw [length_drop]
          omega

end Streams

/-! ### What a task puts back -/

section Stored

/-- The contents have been read to their end, and counted. -/
def AtEnd (contents : Bool) (limit : Option Nat) (w : World) : Prop :=
  if contents then
    w.guest.chunks = [] ∧ w.guest.ended = true ∧ ∀ n, limit = some n → w.read.length = n
  else
    limit = none

/-- The forms of a body that has been put back, or has not been touched. What has been counted
are the bytes read, with the parked ones among them once. -/
inductive Stored (contents : Bool) (limit : Option Nat) (w : World) : GuestBody → Prop
  | untouched (h : contents = false) :
      Stored contents limit w ⟨.none, .some, none, limit.map ContentLength.new⟩
  | parked (buffer : Option Bytes) (h : contents = true)
      (hlimit : ∀ n, limit = some n → w.read.length ≤ n)
      (hread : w.read = w.received ++ buffer.getD []) :
      Stored contents limit w
        ⟨.some, .some, buffer.map .data, limit.map (⟨·, w.read.length⟩)⟩
  | trailers (res : GuestTrailers) (h : AtEnd contents limit w) :
      Stored contents limit w ⟨.none, .none, some (.trailers res), none⟩
  | contentsTaken (h : contents = true) :
      Stored contents limit w ⟨.tombstone, .some, none, limit.map (⟨·, w.read.length⟩)⟩
  | trailersTaken (h : AtEnd contents limit w) :
      Stored contents limit w ⟨.none, .tombstone, none, none⟩

/-- A size is reported only if too much has been read, or if all has been read and is too
little. -/
def WrongSize (limit : Option Nat) (contents : Bool) (w : World) : Prop :=
  ∃ n, limit = some n ∧ (n < w.read.length ∨
    (contents = true → w.guest.chunks = [] ∧ w.guest.ended = true) ∧ w.read.length < n)

structure Follows (guest : Guest) (w : World) : Prop where
  whole : w.read ++ w.guest.chunks.flatten = guest.chunks.flatten
  ended : w.guest.ended = guest.ended
  trailers : w.guest.trailers = guest.trailers

structure Inv (contents : Bool) (limit : Option Nat) (guest : Guest) (w : World) : Prop where
  follows : Follows guest w
  without : contents = false → w.read = []
  stored : ∀ b, w.body = .guest b → Stored contents limit w b

structure Ended (contents : Bool) (limit : Option Nat) (guest : Guest) (e : TaskEnd)
    (w : World) : Prop where
  inv : Inv contents limit guest w
  sizeError : ∀ err, e = .sizeError err → WrongSize limit contents w
  sent : e = .sent → AtEnd contents limit w

variable {contents : Bool} {limit : Option Nat} {guest : Guest} {w w' : World}

theorem Follows.congr (h : Follows guest w) (hguest : w'.guest = w.guest)
    (hread : w'.read = w.read) : Follows guest w' :=
  ⟨by rw [hguest, hread, h.whole], by rw [hguest, h.ended], by rw [hguest, h.trailers]⟩

theorem Follows.next {chunk : Bytes} {chunks : List Bytes} (h : Follows guest w)
    (hchunks : w.guest.chunks = chunk :: chunks) (hguest : w'.guest = { w.guest with chunks })
    (hread : w'.read = w.read ++ chunk) : Follows guest w' := by
  refine ⟨?_, by rw [hguest, ← h.ended], by rw [hguest, ← h.trailers]⟩
  rw [hguest, hread, append_assoc, ← h.whole, hchunks, flatten_cons]

theorem Inv.of_consumed (hf : Follows guest w) (hwithout : contents = false → w.read = [])
    (hbody : w.body = .consumed) : Inv contents limit guest w :=
  ⟨hf, hwithout, fun b hb => by rw [hbody] at hb; cases hb⟩

theorem Ended.stored {b : GuestBody} (hf : Follows guest w)
    (hwithout : contents = false → w.read = []) (hbody : w.body = .guest b)
    (hb : Stored contents limit w b) : Ended contents limit guest .stored w := by
  refine ⟨⟨hf, hwithout, fun b' hb' => ?_⟩, fun _ h => (by cases h), fun h => (by cases h)⟩
  rw [hbody] at hb'
  cases hb'
  exact hb

theorem Ended.of_sizeError {err : ErrorCode} (hf : Follows guest w)
    (hwithout : contents = false → w.read = []) (hbody : w.body = .consumed)
    (hsize : WrongSize limit contents w) : Ended contents limit guest (.sizeError err) w :=
  ⟨.of_consumed hf hwithout hbody, fun _ _ => hsize, fun h => by cases h⟩

/-! ### The trailers -/

theorem sendTrailers_wp (res : GuestTrailers) (hf : Follows guest w)
    (hwithout : contents = false → w.read = []) (hbody : w.body = .consumed)
    (hend : AtEnd contents limit w) :
    wp (sendTrailers res)
      (fun e w' => Ended contents limit guest e w' ∧ (Reading w.answers → e = .sent))
      (fun e _ => e = .pending ∧ ¬ (Reading w.answers ∧ 1 ≤ w.answers.length)) w := by
  unfold sendTrailers
  rw [wp_bind]
  refine answer_wp ?_ ?_
  · intro hnil
    exact ⟨rfl, by simp [hnil]⟩
  · intro a answers hans
    rw [hans]
    cases a with
    | drop =>
      exact ⟨.stored (hf.congr rfl rfl) hwithout rfl (.trailers res hend),
        fun h => absurd h Reading.not_drop⟩
    | go count =>
      exact ⟨⟨.of_consumed (hf.congr rfl rfl) hwithout hbody, nofun, fun _ => hend⟩, fun _ => rfl⟩

theorem receiveTrailers_wp (hf : Follows guest w) (hwithout : contents = false → w.read = [])
    (hbody : w.body = .consumed) (hend : AtEnd contents limit w) :
    wp receiveTrailers (fun e w' => Ended contents limit guest e w' ∧
        (Reading w.answers → guest.trailers ≠ some none → e = .sent))
      (fun e _ => e = .pending ∧
        ¬ (Reading w.answers ∧ 2 ≤ w.answers.length ∧ guest.trailers ≠ none)) w := by
  unfold receiveTrailers
  rw [wp_bind]
  refine answer_wp ?_ ?_
  · intro hnil
    exact ⟨rfl, by simp [hnil]⟩
  · intro a answers hans
    rw [hans]
    cases a with
    | drop =>
      exact ⟨.stored (hf.congr rfl rfl) hwithout rfl (.trailersTaken hend),
        fun h => absurd h Reading.not_drop⟩
    | go count =>
      rw [wp_bind, wp_get]
      rcases htrailers : w.guest.trailers with _ | _ | res
      · rw [← hf.trailers, htrailers]
        exact ⟨rfl, fun h => h.2.2 rfl⟩
      · refine ⟨.stored (hf.congr rfl rfl) hwithout rfl (.trailersTaken hend), fun _ h => ?_⟩
        rw [← hf.trailers, htrailers] at h
        exact absurd rfl h
      · refine wp_mono (sendTrailers_wp res (hf.congr rfl rfl) hwithout hbody hend) ?_ ?_
        · rintro e w' ⟨he, hsent⟩
          exact ⟨he, fun h _ => hsent h.of_cons.2⟩
        · rintro e w' ⟨he, hfew⟩
          refine ⟨he, fun ⟨h, hlen, _⟩ => hfew ⟨h.of_cons.2, ?_⟩⟩
          rw [length_cons] at hlen
          dsimp only
          omega

/-! ### The contents -/

/-- A task that passes contents on: it has counted what was read, and passed it on. -/
structure Passing (limit : Option Nat) (guest : Guest) (cl : Option ContentLength)
    (w : World) : Prop where
  follows : Follows guest w
  count : cl = limit.map (⟨·, w.read.length⟩)
  within : ∀ n, limit = some n → w.read.length ≤ n
  even : w.read = w.received
  taken : w.body = .consumed

/-- A reader that goes on to the end of the body, and a guest that gets there. -/
def Enough (guest : Guest) (parked : Nat) (w : World) : Prop :=
  Reading w.answers ∧ guest.ended = true ∧ guest.trailers ≠ none ∧
    parked + w.guest.chunks.length + w.guest.chunks.flatten.length + 3 ≤ w.answers.length

theorem countChunk_ok {cl cl' : Option ContentLength} {len : Nat}
    (h : countChunk cl len = .ok cl') :
    cl' = cl.map (fun c => ⟨c.limit, c.sent + len⟩) ∧
      ∀ c, cl = some c → c.sent + len ≤ c.limit := by
  unfold countChunk at h
  split at h
  · cases h
    exact ⟨rfl, fun c hc => by cases hc⟩
  · rename_i limit sent
    split at h
    · cases h
    · rename_i n hn
      obtain ⟨rfl, -⟩ := checkedAdd_eq.1 hn
      split_ifs at h with hlt
      cases h
      refine ⟨rfl, fun c hc => ?_⟩
      cases hc
      dsimp only
      omega

variable {cl : Option ContentLength}

theorem countChunk_error {len n : Nat} (h : countChunk cl len = .error n)
    (hlimit : ∀ c, cl = some c → c.limit ≤ u64Max) : ∃ c, cl = some c ∧ c.limit < c.sent + len := by
  unfold countChunk at h
  split at h
  · cases h
  · rename_i limit sent
    refine ⟨_, rfl, ?_⟩
    have hle : limit ≤ u64Max := hlimit _ rfl
    dsimp only
    split at h
    · rename_i hn
      unfold checkedAdd at hn
      split_ifs at hn
      unfold u64Max u64Size at *
      omega
    · rename_i n' hn
      obtain ⟨rfl, -⟩ := checkedAdd_eq.1 hn
      split_ifs at h with hlt
      omega

theorem contentsRound_wp (cx : BodyContext) (hlimit : ∀ n, limit = some n → n ≤ u64Max)
    (hp : Passing limit guest cl w) : wp (contentsRound cx cl)
      (fun o w' => match o with
        | .inl cl' => (Passing limit guest cl' w' ∧ (Enough guest 0 w → Enough guest 0 w')) ∧
            w'.answers.length < w.answers.length
        | .inr none => Passing limit guest cl w' ∧ AtEnd true limit w' ∧
            (Reading w.answers → Reading w'.answers) ∧
            w.answers.length ≤ w'.answers.length + 1
        | .inr (some e) => Ended true limit guest e w' ∧ (Reading w.answers → e ≠ .stored))
      (fun e _ => e = .pending ∧ ¬ Enough guest 0 w) w := by
  unfold contentsRound
  rw [wp_bind]
  refine answer_wp ?_ ?_
  · intro hnil
    refine ⟨rfl, fun h => ?_⟩
    have hlen := h.2.2.2
    rw [hnil, length_nil] at hlen
    omega
  · intro a answers hans
    cases a with
    | drop =>
      rw [hans]
      refine ⟨.stored (hp.follows.congr rfl rfl) (by simp) rfl ?_,
        fun h => absurd h Reading.not_drop⟩
      rw [hp.count]
      exact .contentsTaken rfl
    | go count =>
      rw [wp_bind]
      refine readGuest_wp ?_ ?_ ?_
      · intro chunk chunks hchunks
        dsimp only at hchunks ⊢
        have hf : ∀ answers received body, Follows guest
            ⟨body, { w.guest with chunks }, answers, w.read ++ chunk, received⟩ :=
          fun _ _ _ => hp.follows.next hchunks rfl rfl
        rcases hcount : countChunk cl chunk.length with n | cl'
        · dsimp only
          rw [wp_pure]
          have hle : ∀ c, cl = some c → c.limit ≤ u64Max := by
            rintro c rfl
            obtain ⟨n, hn, rfl⟩ := Option.map_eq_some_iff.1 hp.count.symm
            exact hlimit n hn
          obtain ⟨c, hc, hlt⟩ := countChunk_error hcount hle
          rw [hp.count] at hc
          obtain ⟨n', hn', rfl⟩ := Option.map_eq_some_iff.1 hc
          refine ⟨.of_sizeError (hf _ _ _) (by simp) hp.taken ⟨n', hn', .inl ?_⟩, nofun⟩
          rw [length_append]
          exact hlt
        · obtain ⟨hcl', hwithin⟩ := countChunk_ok hcount
          have hcl : cl' = limit.map (⟨·, (w.read ++ chunk).length⟩) := by
            rw [hcl', hp.count, Option.map_map, length_append]
            rfl
          have hle : ∀ n, limit = some n → (w.read ++ chunk).length ≤ n := by
            rintro n rfl
            rw [length_append]
            exact hwithin ⟨n, w.read.length⟩ hp.count
          refine wp_seq_mono (writeAll_wp chunk) ?_ ?_
          · rintro ⟨buffer, closed⟩ w' ⟨k, answers', hrest, hall, rfl, hlen, hreading⟩
            dsimp only at hrest hall hlen hreading ⊢
            rw [wp_ite]
            refine ⟨fun hclosed => ?_, fun hopen => ?_⟩
            · refine ⟨.stored (hf _ _ _) (by simp) rfl ?_, fun h => ?_⟩
              · rw [hcl]
                refine .parked (some buffer) rfl hle ?_
                rw [hrest, hp.even, append_assoc, Option.getD_some, take_append_drop]
              · rw [hans] at h
                exact absurd (hreading h.of_cons.2).1 (by simp [hclosed])
            · have hnil : chunk.drop k = [] := by
                rw [← hrest]
                exact hall (Bool.eq_false_iff.2 hopen)
              refine ⟨⟨⟨hf _ _ _, hcl, hle, ?_, hp.taken⟩, fun h => ?_⟩, ?_⟩
              · dsimp only
                rw [take_of_length_le (drop_eq_nil_iff.1 hnil), hp.even]
              · obtain ⟨hr, hended, htrailers, hmany⟩ := h
                rw [hans] at hr
                obtain ⟨-, hr', hlen'⟩ := hreading hr.of_cons.2
                refine ⟨hr', hended, htrailers, ?_⟩
                rw [hans, hchunks, flatten_cons, length_append, length_cons, length_cons] at hmany
                dsimp only
                omega
              · rw [hans, length_cons]
                exact lt_succ_of_le hlen
          · rintro e w' ⟨he, hfew⟩
            refine ⟨he, fun h => hfew ?_⟩
            obtain ⟨hr, -, -, hmany⟩ := h
            rw [hans] at hr
            rw [hans, hchunks, flatten_cons, length_append, length_cons, length_cons] at hmany
            exact ⟨hr.of_cons.2, by dsimp only; omega⟩
      · intro hchunks hended
        have hf : Follows guest { w with answers } := hp.follows.congr rfl rfl
        have hp' : Passing limit guest cl { w with answers } :=
          ⟨hf, hp.count, hp.within, hp.even, hp.taken⟩
        have hrest : (Reading w.answers → Reading answers) ∧
            w.answers.length ≤ answers.length + 1 := by
          rw [hans]
          exact ⟨fun h => h.of_cons.2, le_rfl⟩
        rcases hlim : limit with _ | n
        · have hcl : cl = none := by rw [hp.count, hlim]; rfl
          rw [hcl, wp_pure]
          rw [hlim, hcl] at hp'
          exact ⟨hp', ⟨hchunks, hended, nofun⟩, hrest⟩
        · have hcl : cl = some ⟨n, w.read.length⟩ := by rw [hp.count, hlim]; rfl
          rw [hcl]
          rw [wp_ite, wp_pure, wp_pure]
          refine ⟨fun hne => ?_, fun heq => ?_⟩
          · refine ⟨.of_sizeError hf (by simp) hp.taken
              ⟨n, rfl, .inr ⟨fun _ => ⟨hchunks, hended⟩, ?_⟩⟩, nofun⟩
            exact lt_of_le_of_ne (hp.within n hlim) (Ne.symm hne)
          · rw [hlim, hcl] at hp'
            refine ⟨hp', ⟨hchunks, hended, fun n' hn' => ?_⟩, hrest⟩
            cases hn'
            exact (not_not.1 heq).symm
      · intro hchunks hended
        refine ⟨rfl, fun h => ?_⟩
        have := h.2.1
        rw [← hp.follows.ended, hended] at this
        cases this

theorem sendContents_wp (cx : BodyContext) (hlimit : ∀ n, limit = some n → n ≤ u64Max)
    (hp : Passing limit guest cl w) : wp (sendContents cx cl)
      (fun e w' => Ended true limit guest e w' ∧
        (Enough guest 0 w → guest.trailers ≠ some none → e ≠ .stored))
      (fun e _ => e = .pending ∧ ¬ Enough guest 0 w) w := by
  unfold sendContents
  rw [wp_bind, wp_get, wp_bind]
  refine wp_loop (fun cl t => Passing limit guest cl t ∧ (Enough guest 0 w → Enough guest 0 t))
    (fun _ t => t.answers.length) ?_ ⟨hp, id⟩ (lt_succ_self _)
  rintro cl t ⟨hpt, henough⟩
  refine wp_mono (contentsRound_wp cx hlimit hpt) ?_ ?_
  · rintro (cl' | _ | e) t' ht
    · exact ⟨⟨ht.1.1, fun h => ht.1.2 (henough h)⟩, ht.2⟩
    · obtain ⟨hpt', hend, hreading, hlen⟩ := ht
      refine wp_mono (receiveTrailers_wp hpt'.follows (by simp) hpt'.taken hend) ?_ ?_
      · rintro e w' ⟨he, hsent⟩
        refine ⟨he, fun h htrailers => ?_⟩
        rw [hsent (hreading (henough h).1) htrailers]
        exact nofun
      · rintro e w' ⟨he, hfew⟩
        refine ⟨he, fun h => hfew ⟨hreading (henough h).1, ?_, h.2.2.1⟩⟩
        have hmany := (henough h).2.2.2
        omega
    · exact ⟨ht.1, fun h _ => ht.2 (henough h).1⟩
  · rintro e t' ⟨he, hfew⟩
    exact ⟨he, fun h => hfew (henough h)⟩

/-! ### The task -/

def GuestBody.parked (b : GuestBody) : Bytes :=
  match b.buffer with
  | some (.data bytes) => bytes
  | _ => []

/-- A body that was put back while its contents or trailers were being read. -/
def GuestBody.tombstoned (b : GuestBody) : Bool :=
  b.contents == .tombstone || b.trailers == .tombstone

/-- Of the forms of a body, the one that no arm of a match but that of `into_http` is for. -/
def Unmatched (contents : Bool) (limit : Option Nat) : Prop := contents = false ∧ limit = some 0

/-- **Tasks**: from a body in one of its forms, a task leaves one, and reports a wrong size only
if it is wrong. For a reader that goes on to the end it gets there. -/
theorem run_wp (cx : BodyContext) {b : GuestBody} (hlimit : ∀ n, limit = some n → n ≤ u64Max)
    (hinv : Inv contents limit guest w) (hbody : w.body = .guest b)
    (hclean : b.tombstoned = false) (hmatched : ¬ Unmatched contents limit) :
    wp (BodyTask.run cx) (fun e w' => Ended contents limit guest e w' ∧
        (Enough guest b.parked.length w → guest.trailers ≠ some none → e ≠ .stored))
      (fun e _ => e = .pending ∧ ¬ Enough guest b.parked.length w) w := by
  have hf : Follows guest { w with body := .consumed } := hinv.follows.congr rfl rfl
  have htwo : ∀ x, Enough guest x w → 2 ≤ w.answers.length := fun x h => by
    have := h.2.2.2
    omega
  unfold BodyTask.run
  rw [wp_bind, wp_get, wp_bind]
  unfold setBody
  rw [wp_modify, hbody]
  dsimp only
  cases hinv.stored b hbody with
  | untouched h =>
    cases limit with
    | none =>
      have hend : AtEnd contents none { w with body := .consumed } := by simp [AtEnd, h]
      refine wp_mono (receiveTrailers_wp hf hinv.without rfl hend) ?_ ?_
      · rintro e w' ⟨he, hsent⟩
        refine ⟨he, fun hen ht => ?_⟩
        rw [hsent hen.1 ht]
        exact nofun
      · rintro e w' ⟨he, hfew⟩
        exact ⟨he, fun hen => hfew ⟨hen.1, htwo _ hen, hen.2.2.1⟩⟩
    | some n =>
      have hn : n ≠ 0 := fun h0 => hmatched ⟨h, by rw [h0]⟩
      dsimp only [Option.map, GuestBody.sizeMismatch, ContentLength.new]
      rw [if_pos hn, wp_pure]
      refine ⟨.of_sizeError hf hinv.without rfl ⟨n, rfl, .inr ⟨fun hc => ?_, ?_⟩⟩, fun _ _ => nofun⟩
      · rw [h] at hc
        cases hc
      · dsimp only
        rw [hinv.without h, length_nil]
        omega
  | parked buffer h hwithin hread =>
    subst h
    cases buffer with
    | none =>
      rw [Option.getD_none, append_nil] at hread
      exact sendContents_wp cx hlimit ⟨hf, rfl, hwithin, hread, rfl⟩
    | some buffer =>
      dsimp only [Option.map_some, GuestBody.sizeMismatch, GuestBody.parked]
      rw [Option.getD_some] at hread
      refine wp_seq_mono (writeAll_wp buffer) ?_ ?_
      · rintro ⟨rest, closed⟩ w' ⟨k, answers, hrest, hall, rfl, hlen, hreading⟩
        dsimp only at hrest hall hlen hreading ⊢
        rw [wp_ite]
        refine ⟨fun hclosed => ?_, fun hopen => ?_⟩
        · refine ⟨.stored (hf.congr rfl rfl) (by simp) rfl ?_, fun hen => ?_⟩
          · refine .parked (some rest) rfl hwithin ?_
            rw [hrest, hread, append_assoc, Option.getD_some, take_append_drop]
          · exact absurd (hreading hen.1).1 (by simp [hclosed])
        · have hnil : buffer.drop k = [] := by
            rw [← hrest]
            exact hall (Bool.eq_false_iff.2 hopen)
          have heven : w.read = w.received ++ buffer.take k := by
            rw [take_of_length_le (drop_eq_nil_iff.1 hnil), hread]
          have hmore : Enough guest buffer.length w → Enough guest 0
              { w with answers, received := w.received ++ buffer.take k, body := .consumed } := by
            rintro ⟨hr, hended, htrailers, hmany⟩
            obtain ⟨-, hr', hlen'⟩ := hreading hr
            exact ⟨hr', hended, htrailers, by dsimp only; omega⟩
          refine wp_mono (sendContents_wp cx hlimit
            ⟨hf.congr rfl rfl, rfl, hwithin, heven, rfl⟩) ?_ ?_
          · rintro e w' ⟨he, hstored⟩
            exact ⟨he, fun hen => hstored (hmore hen)⟩
          · rintro e w' ⟨he, hfew⟩
            exact ⟨he, fun hen => hfew (hmore hen)⟩
      · rintro e w' ⟨he, hfew⟩
        refine ⟨he, fun hen => hfew ⟨hen.1, ?_⟩⟩
        have := hen.2.2.2
        dsimp only
        omega
  | trailers res h =>
    have hmis : GuestBody.sizeMismatch ⟨.none, .none, some (.trailers res), none⟩ = none := by
      rcases res with _ | _ | _ <;> rfl
    rw [hmis]
    refine wp_mono (sendTrailers_wp res hf hinv.without rfl h) ?_ ?_
    · rintro e w' ⟨he, hsent⟩
      refine ⟨he, fun hen _ => ?_⟩
      rw [hsent hen.1]
      exact nofun
    · rintro e w' ⟨he, hfew⟩
      refine ⟨he, fun hen => hfew ⟨hen.1, ?_⟩⟩
      have := htwo _ hen
      dsimp only
      omega
  | contentsTaken h | trailersTaken h => cases hclean

end Stored

/-! ### Requests and responses -/

section Sending

variable {guest : Guest} {w : World} {n : Nat} {buffer : Bytes}

/-- How many bytes of the body a request has counted: the parked ones come first, and have been
counted when they were read. -/
def Feed.extra (buffer : Bytes) : Feed → Nat
  | .first _ => 0
  | _ => buffer.length

structure Sending (guest : Guest) (n : Nat) (buffer : Bytes) (feed : Feed)
    (body : BodyWithContentLength) (w : World) : Prop where
  follows : Follows guest w
  first : ∀ b, feed = .first b → b = buffer
  count : body = ⟨some ⟨n, min (w.read.length + feed.extra buffer) u64Max⟩, false⟩
  within : min (w.read.length + feed.extra buffer) u64Max ≤ n
  closed : feed = .closed → w.guest.chunks = []

theorem pollFrame_some (sent : Nat) (data : Bytes) :
    BodyWithContentLength.pollFrame ⟨some ⟨n, sent⟩, false⟩ (some data) =
      if saturatingAdd sent data.length > n then
        (some (.error (.httpRequestBodySize (some (saturatingAdd sent data.length)))),
          ⟨some ⟨n, saturatingAdd sent data.length⟩, true⟩)
      else
        (some (.ok data), ⟨some ⟨n, saturatingAdd sent data.length⟩, false⟩) := rfl

theorem pollFrame_none (sent : Nat) :
    BodyWithContentLength.pollFrame ⟨some ⟨n, sent⟩, false⟩ none =
      if sent ≠ n then
        (some (.error (.httpRequestBodySize (some sent))), ⟨some ⟨n, sent⟩, true⟩)
      else
        (none, ⟨some ⟨n, sent⟩, false⟩) := rfl

theorem saturatingAdd_min (a b : Nat) :
    saturatingAdd (min a u64Max) b = min (a + b) u64Max := by
  unfold saturatingAdd
  omega

def Feed.rank : Feed → Nat
  | .first _ => 2
  | .reading => 1
  | .closed => 0

/-- A body is sent, or its size is wrong. The bytes that were read and those that were parked are
added, and `count` is what is made of the sum. -/
def Sent (count : Nat → Nat) (guest : Guest) (n : Nat) (buffer : Bytes) (r : Except ErrorCode Unit)
    (w : World) : Prop :=
  Follows guest w ∧ match r with
    | .ok () => w.guest.chunks = [] ∧ count (w.read.length + buffer.length) = n
    | .error _ => n < count (w.read.length + buffer.length) ∨
        w.guest.chunks = [] ∧ count (w.read.length + buffer.length) < n

abbrev Requested := Sent (min · u64Max)

abbrev Responded := Sent fun k => k

theorem Sending.frame {sent : Nat} (data : Bytes) (feed : Feed) (hf : Follows guest w)
    (hsum : sent + data.length = w.read.length + buffer.length) (hfirst : ∀ b, feed ≠ .first b)
    (hclosed : feed = .closed → w.guest.chunks = []) :
    let r := BodyWithContentLength.pollFrame ⟨some ⟨n, min sent u64Max⟩, false⟩ (some data)
    (∃ body, polled r.1 (feed, r.2) = .inl (feed, body) ∧ Sending guest n buffer feed body w) ∨
      ∃ o, polled r.1 (feed, r.2) = .inr o ∧ Requested guest n buffer o w := by
  intro r
  have hextra : feed.extra buffer = buffer.length := by
    cases feed with
    | first b => exact absurd rfl (hfirst b)
    | reading => rfl
    | closed => rfl
  have hr : r = BodyWithContentLength.pollFrame ⟨some ⟨n, min sent u64Max⟩, false⟩ (some data) :=
    rfl
  rw [pollFrame_some, saturatingAdd_min, hsum] at hr
  by_cases hlong : min (w.read.length + buffer.length) u64Max > n
  · rw [hr, if_pos hlong]
    exact .inr ⟨_, rfl, hf, .inl hlong⟩
  · rw [hr, if_neg hlong]
    refine .inl ⟨_, rfl, hf, fun b hb => absurd hb (hfirst b), ?_, ?_, hclosed⟩
    · rw [hextra]
    · rw [hextra]
      omega

theorem Sending.finish {body : BodyWithContentLength}
    (h : Sending guest n buffer .closed body w) :
    ∃ r, polled (BodyWithContentLength.pollFrame body none).1
      (Feed.closed, (BodyWithContentLength.pollFrame body none).2) = .inr r ∧
      Requested guest n buffer r w := by
  have hwithin := h.within
  rw [h.count, pollFrame_none]
  by_cases hshort : min (w.read.length + Feed.closed.extra buffer) u64Max ≠ n
  · rw [if_pos hshort]
    exact ⟨_, rfl, h.follows, .inr ⟨h.closed rfl, lt_of_le_of_ne hwithin hshort⟩⟩
  · rw [if_neg hshort]
    exact ⟨_, rfl, h.follows, h.closed rfl, not_not.1 hshort⟩

/-- **Requests**: the bytes that were parked are counted twice, and a sum that does not fit into
64 bits is cut off. -/
theorem sendRequest_wp (buffer : Bytes) (hended : guest.ended = true) (hf : Follows guest w)
    (hn : n ≤ u64Max) (hwithin : w.read.length ≤ n) :
    wp (sendRequest buffer (some ⟨n, w.read.length⟩)) (Requested guest n buffer)
      (fun _ _ => False) w := by
  unfold sendRequest
  rw [wp_bind, wp_get]
  refine wp_loop (fun s t => Sending guest n buffer s.1 s.2 t)
    (fun s t => t.guest.chunks.length + s.1.rank) ?_ ⟨hf, ?_, ?_, ?_, ?_⟩ ?_
  · rintro ⟨feed, body⟩ t ht
    have hcount := ht.count
    dsimp only at ht hcount ⊢
    subst hcount
    rw [wp_bind]
    cases feed with
    | first b =>
      obtain rfl := ht.first b rfl
      unfold Feed.frame
      rw [wp_pure, wp_pure]
      rcases Sending.frame (n := n) b .reading ht.follows
          (show t.read.length + (Feed.first b).extra b + b.length = t.read.length + b.length by
            rw [Feed.extra, Nat.add_zero])
          (by simp) (by simp) with ⟨body, hinl, hs⟩ | ⟨o, hinr, ho⟩
      · rw [hinl]
        exact ⟨hs, by dsimp only [Feed.rank]; omega⟩
      · rw [hinr]
        exact ho
    | reading =>
      unfold Feed.frame
      rw [wp_bind]
      refine readGuest_wp ?_ ?_ ?_
      · intro chunk chunks hchunks
        rw [wp_pure, wp_pure]
        have hf' : Follows guest { t with
            guest := { t.guest with chunks }, read := t.read ++ chunk } :=
          ht.follows.next hchunks rfl rfl
        rcases Sending.frame (n := n) chunk .reading hf'
            (show t.read.length + Feed.reading.extra buffer + chunk.length =
                (t.read ++ chunk).length + buffer.length by
              rw [length_append, Feed.extra]
              · omega
              · simp)
            (by simp) (by simp) with ⟨body, hinl, hs⟩ | ⟨o, hinr, ho⟩
        · rw [hinl]
          refine ⟨hs, ?_⟩
          rw [hchunks, length_cons]
          dsimp only
          omega
        · rw [hinr]
          exact ho
      · intro hchunks _
        rw [wp_pure, wp_pure]
        rcases Sending.frame (n := n) [] .closed ht.follows
            (show t.read.length + Feed.reading.extra buffer + 0 = t.read.length + buffer.length
              from rfl)
            (by simp) (fun _ => hchunks) with ⟨body, hinl, hs⟩ | ⟨o, hinr, ho⟩
        · rw [hinl]
          exact ⟨hs, by dsimp only [Feed.rank]; omega⟩
        · rw [hinr]
          exact ho
      · intro _ hopen
        rw [ht.follows.ended, hended] at hopen
        cases hopen
    | closed =>
      unfold Feed.frame
      rw [wp_pure, wp_pure]
      obtain ⟨r, hr, hreq⟩ := ht.finish
      rw [hr]
      exact hreq
  · intro b hb
    cases hb
    rfl
  · dsimp only [Feed.extra, BodyWithContentLength.new]
    rw [Nat.min_eq_left (by omega), Nat.add_zero]
  · dsimp only [Feed.extra]
    omega
  · intro h
    cases h
  · dsimp only [Feed.rank]
    omega

/-- A response that is being sent: the parked bytes are still to be sent, or have been. -/
structure Responding (guest : Guest) (n : Nat) (buffer : Bytes) (body : OutgoingResponseBody)
    (w : World) : Prop where
  follows : Follows guest w
  contents : body.contents = true
  parked : body.buffer = buffer ∨ body.buffer = []
  count : body.contentLength = some ⟨n, w.read.length + (buffer.length - body.buffer.length)⟩
  within : w.read.length + (buffer.length - body.buffer.length) ≤ n

theorem countFrame_some (sent len : Nat) (hn : n ≤ u64Max) :
    (∃ err, countFrame (some ⟨n, sent⟩) len = .error err ∧ n < sent + len) ∨
      countFrame (some ⟨n, sent⟩) len = .ok (some ⟨n, sent + len⟩) ∧ sent + len ≤ n := by
  unfold countFrame
  dsimp only
  rcases hsum : checkedAdd sent len with _ | k
  · refine .inl ⟨_, rfl, ?_⟩
    unfold checkedAdd at hsum
    split_ifs at hsum
    unfold u64Max u64Size at *
    omega
  · obtain ⟨rfl, -⟩ := checkedAdd_eq.1 hsum
    by_cases hlong : sent + len > n
    · exact .inl ⟨_, if_pos hlong, hlong⟩
    · exact .inr ⟨if_neg hlong, by omega⟩

theorem frame_wp (hended : guest.ended = true) (hf : Follows guest w) : wp ResponseIo.frame
      (fun o w' => Follows guest w' ∧ match o with
        | some chunk => w'.read = w.read ++ chunk ∧ w'.guest.chunks.length < w.guest.chunks.length
        | none => w'.read = w.read ∧ w'.guest.chunks = [])
      (fun _ _ => False) w := by
  unfold ResponseIo.frame
  rw [wp_bind, wp_get]
  refine wp_loop (fun _ t => Follows guest t ∧ t.read = w.read ∧
      t.guest.chunks.length ≤ w.guest.chunks.length)
    (fun _ t => t.guest.chunks.length) ?_ ⟨hf, rfl, le_rfl⟩ (lt_succ_self _)
  rintro ⟨⟩ t ⟨hft, hread, hlen⟩
  rw [wp_bind]
  refine readGuest_wp ?_ ?_ ?_
  · intro chunk chunks hchunks
    have hf' : Follows guest { t with
        guest := { t.guest with chunks }, read := t.read ++ chunk } := hft.next hchunks rfl rfl
    rw [hchunks, length_cons] at hlen
    rw [wp_ite, wp_pure, wp_pure]
    refine ⟨fun hempty => ?_, fun _ => ⟨hf', by rw [hread], by dsimp only; omega⟩⟩
    refine ⟨⟨hf', ?_, by dsimp only; omega⟩, ?_⟩
    · dsimp only
      rw [List.isEmpty_iff.1 hempty, append_nil, hread]
    · rw [hchunks]
      exact lt_succ_self _
  · intro hchunks _
    exact ⟨hft, hread, hchunks⟩
  · intro _ hopen
    rw [hft.ended, hended] at hopen
    cases hopen

/-- **Responses**: here too the bytes that were parked are counted twice. -/
theorem sendResponse_wp (buffer : Bytes) (hended : guest.ended = true) (hf : Follows guest w)
    (hn : n ≤ u64Max) (hwithin : w.read.length ≤ n) :
    wp (sendResponse buffer (some ⟨n, w.read.length⟩)) (Responded guest n buffer)
      (fun _ _ => False) w := by
  unfold sendResponse
  rw [wp_bind, wp_get]
  refine wp_loop (fun s t => Responding guest n buffer s t)
    (fun s t => t.guest.chunks.length + if s.buffer.isEmpty then 1 else 2) ?_ ?_ ?_
  · rintro body t ht
    rw [wp_bind]
    unfold OutgoingResponseBody.pollFrame
    rw [wp_ite]
    refine ⟨fun hempty => ?_, fun hfull => ?_⟩
    · have hnil : body.buffer = [] := List.isEmpty_iff.1 hempty
      have hcount := ht.count
      have hle := ht.within
      rw [hnil, length_nil, Nat.sub_zero] at hcount hle
      rw [if_pos ht.contents, wp_bind, hcount]
      refine wp_imp (frame_wp hended ht.follows) ?_
      rintro (_ | chunk) t' ⟨hf', hframe⟩
      · obtain ⟨hread, hchunks⟩ := hframe
        rw [wp_ite, wp_pure, wp_pure, wp_pure, wp_pure]
        refine ⟨fun hne => ⟨hf', .inr ⟨hchunks, ?_⟩⟩, fun heq => ⟨hf', hchunks, ?_⟩⟩
        · dsimp only
          rw [hread]
          omega
        · dsimp only
          rw [hread]
          omega
      · obtain ⟨hread, hless⟩ := hframe
        have hlen : t'.read.length = t.read.length + chunk.length := by
          rw [hread, length_append]
        dsimp only
        rcases countFrame_some (t.read.length + buffer.length) chunk.length hn
          with ⟨err, herr, hlong⟩ | ⟨hok, hshort⟩
        · rw [herr]
          refine ⟨hf', .inl ?_⟩
          dsimp only
          omega
        · rw [hok]
          refine ⟨⟨hf', ht.contents, .inr hnil, ?_, ?_⟩, ?_⟩
          · dsimp only
            rw [hnil, length_nil, Nat.sub_zero, hlen, Nat.add_right_comm]
          · dsimp only
            rw [hnil, length_nil, Nat.sub_zero, hlen]
            omega
          · dsimp only
            omega
    · have hparked : body.buffer = buffer := ht.parked.resolve_right fun h => hfull (by rw [h]; rfl)
      have hcount := ht.count
      rw [hparked, Nat.sub_self, Nat.add_zero] at hcount
      rw [hcount, hparked]
      rcases countFrame_some t.read.length buffer.length hn
        with ⟨err, herr, hlong⟩ | ⟨hok, hshort⟩
      · rw [herr]
        exact ⟨ht.follows, .inl hlong⟩
      · rw [hok]
        refine ⟨⟨ht.follows, ht.contents, .inr rfl, rfl, hshort⟩, ?_⟩
        rw [hparked] at hfull
        rw [if_neg hfull, isEmpty_nil, if_pos rfl]
        omega
  · exact ⟨hf, rfl, .inl rfl, by dsimp only [OutgoingResponseBody.new]; rw [Nat.sub_self]; rfl,
      by dsimp only [OutgoingResponseBody.new]; omega⟩
  · split_ifs <;> omega

end Sending

/-! ### Runs -/

section Runs

variable {cx : BodyContext} {contents : Bool} {limit : Option Nat} {guest : Guest}
  {tr : List (List Answer)} {w w' : World} {b : GuestBody} {n : Nat}

/-- A call of `body` whose task ends, unless the body had to be put back in the middle of a
read. -/
def Step (cx : BodyContext) (w : World) (answers : List Answer) (w' : World) : Prop :=
  ∃ b e, w.body = .guest b ∧ b.tombstoned = false ∧ BodyTask.run cx { w with answers } = (.ok e, w')

theorem Inv.of_answers (h : Inv contents limit guest w) (answers : List Answer) :
    Inv contents limit guest { w with answers } := by
  refine ⟨h.follows.congr rfl rfl, h.without, fun b hb => ?_⟩
  cases h.stored b hb with
  | untouched hc => exact .untouched hc
  | parked buffer hc hwithin hread => exact .parked buffer hc hwithin hread
  | trailers res hend => exact .trailers res hend
  | contentsTaken hc => exact .contentsTaken hc
  | trailersTaken hend => exact .trailersTaken hend

/-- The body that no arm is for: it has no contents, and should have none. -/
theorem Unmatched.body_eq (h : Unmatched contents limit) (hb : Stored contents limit w b) :
    b = ⟨.none, .some, none, some ⟨0, 0⟩⟩ := by
  obtain ⟨rfl, rfl⟩ := h
  cases hb with
  | untouched => rfl
  | parked _ hc => cases hc
  | trailers _ hend => cases hend
  | contentsTaken hc => cases hc
  | trailersTaken hend => cases hend

theorem run_unmatched (cx : BodyContext)
    (hbody : w.body = .guest ⟨.none, .some, none, some ⟨0, 0⟩⟩) :
    (BodyTask.run cx w).1 = .err .corrupted := by
  unfold BodyTask.run
  simp only [run_bind, Prog.get, hbody]
  rfl

theorem step_inv (hlimit : ∀ n, limit = some n → n ≤ u64Max) (h : Inv contents limit guest w)
    {answers : List Answer} (hstep : Step cx w answers w') : Inv contents limit guest w' := by
  obtain ⟨b, e, hb, hclean, hrun⟩ := hstep
  by_cases hun : Unmatched contents limit
  · have hcorrupted := run_unmatched (w := { w with answers }) cx
      (by rw [← hun.body_eq (h.stored b hb)]; exact hb)
    rw [hrun] at hcorrupted
    cases hcorrupted
  · exact (wp_ok (run_wp cx hlimit (h.of_answers answers) hb hclean hun) hrun).1.inv

theorem inv_new : Inv contents limit guest (.new contents limit guest) := by
  refine ⟨⟨rfl, rfl, rfl⟩, fun _ => rfl, fun b hb => ?_⟩
  cases hb
  cases contents with
  | false => exact .untouched rfl
  | true => exact .parked none rfl (fun _ _ => Nat.zero_le _) rfl

/-- **The forms of a body over any number of readers.** -/
theorem run_stored (hlimit : ∀ n, limit = some n → n ≤ u64Max)
    (hrun : Trace (Step cx) (.new contents limit guest) tr w) : Inv contents limit guest w :=
  Trace.invariant (I := Inv contents limit guest) inv_new
    (fun _ _ _ h hstep => step_inv hlimit h hstep) hrun

theorem run_corrupted_iff (hlimit : ∀ n, limit = some n → n ≤ u64Max)
    (hinv : Inv contents limit guest w) (hbody : w.body = .guest b)
    (hclean : b.tombstoned = false) :
    (BodyTask.run cx w).1 = .err .corrupted ↔ Unmatched contents limit := by
  constructor
  · intro hcorrupted
    by_contra hun
    have hwp := run_wp cx hlimit hinv hbody hclean hun
    rw [wp] at hwp
    rcases hrun : BodyTask.run cx w with ⟨o, w'⟩
    rw [hrun] at hwp hcorrupted
    subst hcorrupted
    cases hwp.1
  · intro hun
    refine run_unmatched cx ?_
    rw [← hun.body_eq (hinv.stored b hbody)]
    exact hbody

theorem handle_corrupted_iff (hstored : Stored contents limit w b) (hclean : b.tombstoned = false) :
    handle (.guest b) = .error .corrupted ↔ Unmatched contents limit := by
  constructor
  · intro hcorrupted
    cases hstored with
    | untouched hc =>
      rcases limit with _ | _ | n
      · cases hcorrupted
      · exact ⟨hc, rfl⟩
      · cases hcorrupted
    | parked buffer => cases buffer <;> cases hcorrupted
    | trailers res => rcases res with _ | _ | _ <;> cases hcorrupted
    | contentsTaken | trailersTaken => cases hclean
  · intro hun
    rw [hun.body_eq hstored]
    rfl

theorem intoHttp_ne_corrupted (hstored : Stored contents limit w b)
    (hclean : b.tombstoned = false) : intoHttp (.guest b) ≠ .error .corrupted := by
  intro hcorrupted
  cases hstored with
  | untouched hc => rcases limit with _ | _ | n <;> cases hcorrupted
  | parked buffer => cases buffer <;> cases hcorrupted
  | trailers res => rcases res with _ | _ | _ <;> cases hcorrupted
  | contentsTaken | trailersTaken => cases hclean

theorem run_consumed (cx : BodyContext) (hbody : w.body = .consumed) :
    (BodyTask.run cx w).1 = .err .consumed := by
  unfold BodyTask.run
  simp only [run_bind, Prog.get, hbody]
  rfl

/-- **Corrupted bodies**: a consumer calls a body corrupted just if it was built without contents
and with a `Content-Length` of zero; `into_http` never does. -/
theorem corrupted_iff (hlimit : ∀ n, limit = some n → n ≤ u64Max)
    (hrun : Trace (Step cx) (.new contents limit guest) tr w)
    (hclean : ∀ b, w.body = .guest b → b.tombstoned = false) :
    (∀ answers, (BodyTask.run cx { w with answers }).1 = .err .corrupted ↔
      Unmatched contents limit ∧ w.body ≠ .consumed) ∧
    (handle w.body = .error .corrupted ↔ Unmatched contents limit ∧ w.body ≠ .consumed) ∧
    intoHttp w.body ≠ .error .corrupted := by
  have hinv := run_stored hlimit hrun
  obtain hbody | ⟨b, hbody⟩ : w.body = .consumed ∨ ∃ b, w.body = .guest b := by
    cases w.body with
    | consumed => exact .inl rfl
    | guest b => exact .inr ⟨b, rfl⟩
  · refine ⟨fun answers => ?_, ?_, ?_⟩
    · rw [run_consumed cx (by exact hbody)]
      exact ⟨fun h => (by cases h), fun h => absurd hbody h.2⟩
    · rw [hbody]
      exact ⟨fun h => (by cases h), fun h => absurd rfl h.2⟩
    · rw [hbody]
      intro h
      cases h
  · have hne : w.body ≠ .consumed := by
      rw [hbody]
      simp
    have hstored := hinv.stored b hbody
    refine ⟨fun answers => ?_, ?_, ?_⟩
    · rw [run_corrupted_iff hlimit (hinv.of_answers answers) hbody (hclean b hbody)]
      exact ⟨fun h => ⟨h, hne⟩, fun h => h.1⟩
    · rw [hbody, handle_corrupted_iff hstored (hclean b hbody), ← hbody]
      exact ⟨fun h => ⟨h, hne⟩, fun h => h.1⟩
    · rw [hbody]
      exact intoHttp_ne_corrupted hstored (hclean b hbody)

def sampleGuest (chunks : List Bytes) : Guest := ⟨chunks, true, some (some (.ok none))⟩

/-- A reader has taken one of four bytes and left: the other three are parked. -/
def parked : World :=
  (BodyTask.run .request { World.new true (some 4) (sampleGuest [[1, 2, 3, 4]]) with
    answers := [.go 4, .go 1, .drop] }).2

theorem parked_body :
    parked.body = .guest ⟨.some, .some, some (.data [2, 3, 4]), some ⟨4, 4⟩⟩ := rfl

theorem trace_parked : Trace (Step .request) (.new true (some 4) (sampleGuest [[1, 2, 3, 4]]))
    [[.go 4, .go 1, .drop]] parked :=
  .single ⟨_, .stored, rfl, rfl, Prod.ext (by decide +kernel) rfl⟩

theorem corrupted_iff_parked :
    (∀ answers, (BodyTask.run .request { parked with answers }).1 ≠ .err .corrupted) ∧
    handle parked.body ≠ .error .corrupted ∧ intoHttp parked.body ≠ .error .corrupted := by
  have hmatched : ¬ Unmatched true (some 4) := fun h => by cases h.1
  obtain ⟨hrun, hhandle, hhttp⟩ := corrupted_iff (by rintro n ⟨rfl⟩; decide) trace_parked (by
    rintro b hb
    cases parked_body.symm.trans hb
    rfl)
  exact ⟨fun answers h => hmatched ((hrun answers).1 h).1, fun h => hmatched (hhandle.1 h).1, hhttp⟩

/-- A request without contents whose headers say so. -/
theorem empty_corrupted :
    (BodyTask.run .request (.new false (some 0) (sampleGuest []))).1 = .err .corrupted ∧
      handle (.guest (.new false (some 0))) = .error .corrupted := by
  decide +kernel

/-! ### Counting -/

/-- What is raised about the size of a body is true of it. -/
def SizeTold (n : Nat) (w : World) : Prop :=
  n < w.read.length ∨ w.guest.chunks = [] ∧ w.read.length < n

/-- How a stored body with a `Content-Length` of `n` is counted, for a guest whose contents have
`guest.chunks.flatten.length` bytes. -/
structure Counted (cx : BodyContext) (n : Nat) (guest : Guest) (b : GuestBody) (w : World) :
    Prop where
  stored : ∀ cl, b.contentLength = some cl →
    cl = ⟨n, w.read.length⟩ ∧ w.read = w.received ++ b.parked
  ended : ∀ res, b.buffer = some (.trailers res) → guest.chunks.flatten.length = n
  task : ∀ answers, Enough guest b.parked.length { w with answers } →
    guest.trailers ≠ some none → ∃ e w', BodyTask.run cx { w with answers } = (.ok e, w') ∧
      (e = .sent ∨ ∃ err, e = .sizeError err) ∧ (e = .sent ↔ guest.chunks.flatten.length = n)
  taskError : ∀ answers err w', BodyTask.run cx { w with answers } = (.ok (.sizeError err), w') →
    SizeTold n w'
  request : ∀ buffer cl, handle w.body = .ok (.ok (.contents buffer cl)) →
    buffer = b.parked ∧ ∃ r w', sendRequest buffer cl w = (.ok r, w') ∧
      (r = .ok () ↔ min (guest.chunks.flatten.length + buffer.length) u64Max = n) ∧
      (buffer = [] → ∀ err, r = .error err → SizeTold n w')
  response : ∀ buffer cl, intoHttp w.body = .ok (.contents buffer cl) →
    buffer = b.parked ∧ ∃ r w', sendResponse buffer cl w = (.ok r, w') ∧
      (r = .ok () ↔ guest.chunks.flatten.length + buffer.length = n) ∧
      (buffer = [] → ∀ err, r = .error err → SizeTold n w')

theorem Follows.length (h : Follows guest w) :
    w.read.length + w.guest.chunks.flatten.length = guest.chunks.flatten.length := by
  rw [← h.whole, length_append]

theorem Follows.length_of_nil (h : Follows guest w) (hnil : w.guest.chunks = []) :
    w.read.length = guest.chunks.flatten.length := by
  have hlen := h.length
  rwa [hnil, flatten_nil, length_nil, Nat.add_zero] at hlen

theorem AtEnd.length (h : AtEnd true (some n) w) (hf : Follows guest w) :
    guest.chunks.flatten.length = n := by
  rw [← hf.length_of_nil h.1]
  exact h.2.2 n rfl

theorem WrongSize.told (h : WrongSize (some n) true w) : SizeTold n w := by
  obtain ⟨n', hn', hsize⟩ := h
  cases hn'
  exact hsize.imp id fun h => ⟨(h.1 rfl).1, h.2⟩

theorem SizeTold.ne (h : SizeTold n w) (hf : Follows guest w) :
    guest.chunks.flatten.length ≠ n := by
  rcases h with hlong | ⟨hnil, hshort⟩
  · have := hf.length
    omega
  · rw [← hf.length_of_nil hnil]
    omega

theorem Sent.counted {count : Nat → Nat} {buffer : Bytes} {r : Except ErrorCode Unit}
    (h : Sent count guest n buffer r w) (hmono : Monotone count)
    (hlong : ∀ {k}, n < count k → n < k) (hshort : ∀ {k}, count k < n → k < n) :
    (r = .ok () ↔ count (guest.chunks.flatten.length + buffer.length) = n) ∧
      (buffer = [] → ∀ err, r = .error err → SizeTold n w) := by
  obtain ⟨hf, hr⟩ := h
  have hlen := hf.length
  cases r with
  | ok =>
    refine ⟨⟨fun _ => ?_, fun _ => rfl⟩, fun _ _ h => by cases h⟩
    rw [← hf.length_of_nil hr.1]
    exact hr.2
  | error err =>
    refine ⟨⟨fun h => (by cases h), fun h => ?_⟩, fun hbuffer _ _ => ?_⟩
    · rcases hr with hr | ⟨hnil, hr⟩
      · exact absurd (h ▸ hmono (show w.read.length + buffer.length ≤ _ by omega)) (not_le.2 hr)
      · rw [hf.length_of_nil hnil] at hr
        omega
    · rw [hbuffer, length_nil, Nat.add_zero] at hr
      exact hr.imp hlong fun h => ⟨h.1, hshort h.2⟩

/-- **Every byte is counted once** by a task, also if it was parked; a request or a response counts
those that were parked when it was sent once more. -/
theorem contentLength_counted (hn : n ≤ u64Max) (hended : guest.ended = true)
    (hrun : Trace (Step cx) (.new true (some n) guest) tr w) (hbody : w.body = .guest b)
    (hclean : b.tombstoned = false) : Counted cx n guest b w := by
  have hlimit : ∀ n', some n = some n' → n' ≤ u64Max := by
    rintro n' ⟨rfl⟩
    exact hn
  have hmatched : ¬ Unmatched true (some n) := fun h => by cases h.1
  have hinv := run_stored hlimit hrun
  have hwp : ∀ answers, _ := fun answers =>
    run_wp (w := { w with answers }) cx hlimit (hinv.of_answers answers) hbody hclean hmatched
  refine ⟨?_, ?_, fun answers hen htrailers => ?_, fun answers err w' hr => ?_, ?_, ?_⟩
  · intro cl hcl
    cases hinv.stored b hbody with
    | untouched hc => cases hc
    | parked buffer _ _ hread =>
      cases hcl
      cases buffer <;> exact ⟨rfl, hread⟩
    | trailers => cases hcl
    | contentsTaken | trailersTaken => cases hclean
  · intro res hres
    cases hinv.stored b hbody with
    | untouched hc => cases hc
    | parked buffer => cases buffer <;> cases hres
    | trailers _ hend => exact hend.length hinv.follows
    | contentsTaken | trailersTaken => cases hclean
  · obtain ⟨e, w', hr, he, hstored⟩ := exists_of_wp
      (wp_mono (hwp answers) (fun _ _ h => h) (fun _ _ h => h.2 hen))
    refine ⟨e, w', hr, ?_⟩
    cases e with
    | stored => exact absurd rfl (hstored hen htrailers)
    | sent => exact ⟨.inl rfl, fun _ => (he.sent rfl).length he.inv.follows, fun _ => rfl⟩
    | sizeError err =>
      refine ⟨.inr ⟨err, rfl⟩, fun h => (by cases h), fun hm => ?_⟩
      exact absurd hm ((he.sizeError err rfl).told.ne he.inv.follows)
  · exact ((wp_ok (hwp answers) hr).1.sizeError err rfl).told
  · intro buffer cl hcl
    rw [hbody] at hcl
    cases hinv.stored b hbody with
    | untouched hc => cases hc
    | parked buffer' _ hwithin hread =>
      obtain ⟨r, w', hr, hreq⟩ := exists_of_wp
        (sendRequest_wp buffer hended hinv.follows hn (hwithin n rfl))
      cases buffer' <;> cases hcl <;> exact ⟨rfl, r, w', hr, hreq.counted
        (fun _ _ h => min_le_min_right _ h) (by omega) (by omega)⟩
    | trailers res => rcases res with _ | _ | _ <;> cases hcl
    | contentsTaken | trailersTaken => cases hclean
  · intro buffer cl hcl
    rw [hbody] at hcl
    cases hinv.stored b hbody with
    | untouched hc => cases hc
    | parked buffer' _ hwithin hread =>
      obtain ⟨r, w', hr, hreq⟩ := exists_of_wp
        (sendResponse_wp buffer hended hinv.follows hn (hwithin n rfl))
      cases buffer' <;> cases hcl <;> exact ⟨rfl, r, w', hr, hreq.counted monotone_id id id⟩
    | trailers res => rcases res with _ | _ | _ <;> cases hcl
    | contentsTaken | trailersTaken => cases hclean

theorem contentLength_counted_parked : Counted .request 4 (sampleGuest [[1, 2, 3, 4]])
    ⟨.some, .some, some (.data [2, 3, 4]), some ⟨4, 4⟩⟩ parked :=
  contentLength_counted (by decide) rfl trace_parked parked_body rfl

/-- A request of four bytes, of which a reader takes one before it leaves: the other three are
counted again when the request is sent. -/
theorem parked_counted_twice :
    let o := BodyTask.run .request { World.new true (some 4) (sampleGuest [[1, 2, 3, 4]]) with
      answers := [.go 4, .go 1, .drop] }
    o.1 = .ok .stored ∧ o.2.read = [1, 2, 3, 4] ∧
      handle o.2.body = .ok (.ok (.contents [2, 3, 4] (some ⟨4, 4⟩))) ∧
      (sendRequest [2, 3, 4] (some ⟨4, 4⟩) o.2).1 =
        .ok (.error (.httpRequestBodySize (some 7))) := by
  decide +kernel

end Runs

end Wasmtime.Http
