import SystemsLabs.Proxylab.Relay
import SystemsLabs.Proxylab.RioRuns
import SystemsLabs.Proxylab.Uri

/-!
# The proxy on top of robust input and output

`process_request` reads the request line with `Rio_readlineb`, and the loop of `send_request`
reads from the server with `Rio_readnb` and writes to the client with `Rio_writen`. A wrapper
ends the process where its function fails. Where none fails, the line and the chunks are those
of the stream, so that both functions work as if the whole stream were there at once.
-/

namespace SystemsLabs
namespace Proxylab

open Memory Posix

/-! ## Writing -/

section Writing
variable {α : Type*} {snk snk' : Sink α} {bytes left : List α} {answers : List Answer} {n rc : ℤ}
  {fuel : ℕ}

/-- No call fails but by an interruption, and every other call writes something. -/
structure Willing (answers : List Answer) : Prop where
  unfailing : Unfailing answers
  positive : Answer.moves 0 ∉ answers

lemma Willing.of_cons {a : Answer} (h : Willing (a :: answers)) : Willing answers where
  unfailing := h.unfailing.of_cons
  positive hmem := h.positive (List.mem_cons_of_mem a hmem)

namespace Rio

/-- All bytes are written, or the first ones; whatever is written is written once. -/
lemma writenLoop_spec (h : writenLoop n fuel left snk = some (rc, snk')) :
    rc = n ∧ snk'.bytes = snk.bytes ++ left ∨
      rc = -1 ∧ ∃ k < left.length, snk'.bytes = snk.bytes ++ left.take k := by
  induction fuel generalizing left snk with
  | zero =>
    cases left with
    | nil =>
      cases h
      exact Or.inl ⟨rfl, (List.append_nil _).symm⟩
    | cons b left => cases h
  | succ fuel ih =>
    cases left with
    | nil =>
      cases h
      exact Or.inl ⟨rfl, (List.append_nil _).symm⟩
    | cons b left =>
      rw [writenLoop] at h
      split at h
      · cases h
      · rename_i nwritten snk₁ hwrite
        -- what this call has written
        obtain ⟨k, hpiece, hbytes⟩ : ∃ k, nwritten.toNat = ((b :: left).take k).length ∧
            snk₁.bytes = snk.bytes ++ (b :: left).take k := by
          obtain ⟨-, ⟨k, hrc, hbytes, -⟩ | ⟨hrc, hbytes, -⟩⟩ := Sink.write_spec hwrite
          · exact ⟨k, by rw [hrc, Int.toNat_natCast], hbytes⟩
          · refine ⟨0, by rw [hrc]; rfl, ?_⟩
            rw [hbytes, List.take_zero, List.append_nil]
        by_cases hpos : nwritten ≤ 0
        · have hnone : (b :: left).take k = [] := by
            rw [← List.length_eq_zero_iff, ← hpiece]
            omega
          rw [hnone, List.append_nil] at hbytes
          rw [if_pos hpos] at h
          split_ifs at h
          · have hrec := ih h
            rwa [hbytes] at hrec
          · cases h
            refine Or.inr ⟨rfl, 0, Nat.succ_pos _, ?_⟩
            rw [hbytes, List.take_zero, List.append_nil]
        · rw [if_neg hpos] at h
          have hsplit := List.take_append_drop k (b :: left)
          have hdrop : (b :: left).drop nwritten.toNat = (b :: left).drop k := by
            rw [hpiece, List.length_take]
            rcases le_total k (b :: left).length with hk | hk
            · rw [min_eq_left hk]
            · rw [min_eq_right hk, List.drop_length, List.drop_eq_nil_of_le hk]
          rw [hdrop] at h
          obtain ⟨hrc, hall⟩ | ⟨hrc, j, hj, hsome⟩ := ih h
          · refine Or.inl ⟨hrc, ?_⟩
            rw [hall, hbytes, List.append_assoc, hsplit]
          · refine Or.inr ⟨hrc, ((b :: left).take k).length + j, ?_, ?_⟩
            · rw [← hsplit, List.length_append, hsplit]
              omega
            · rw [hsome, hbytes, List.append_assoc, ← List.take_length_add_append, hsplit]

/-- With an answer for each byte all bytes are written. -/
lemma writenLoop_of_willing (hw : Willing snk.answers) (hcalls : left.length ≤ calls snk.answers)
    (hfuel : snk.answers.length < fuel) : ∃ snk', writenLoop n fuel left snk = some (n, snk') ∧
      Willing snk'.answers ∧ calls snk.answers ≤ calls snk'.answers + left.length := by
  induction fuel generalizing left snk with
  | zero => omega
  | succ fuel ih =>
    cases left with
    | nil => exact ⟨snk, rfl, hw, le_refl _⟩
    | cons b left =>
      have hne : snk.answers ≠ [] := by
        intro hnil
        rw [hnil] at hcalls
        exact absurd hcalls (Nat.not_succ_le_zero _)
      obtain ⟨⟨nwritten, snk₁⟩, hwrite⟩ :=
        Option.isSome_iff_exists.1 (Sink.isSome_write (b :: left) hne)
      rw [writenLoop, hwrite]
      dsimp only
      obtain ⟨⟨a, hanswers⟩, ⟨k, hrc, -, -, hk⟩ | ⟨hrc, -, hk⟩⟩ := Sink.write_spec hwrite
      · have hkpos : 0 < k := by
          rw [Nat.pos_iff_ne_zero]
          intro hzero
          apply hw.positive
          rw [hk, hzero]
          exact List.mem_cons_self
        have hlength : 0 < ((b :: left).take k).length := by
          rw [List.length_take, List.length_cons]
          omega
        rw [hk, calls_answered (by intro heq; cases heq)] at hcalls
        rw [hk, List.length_cons] at hfuel
        rw [hk] at hw
        have hdrop : ((b :: left).drop nwritten.toNat).length + nwritten.toNat =
            (b :: left).length := by
          rw [List.length_drop, hrc, Int.toNat_natCast, List.length_take]
          omega
        obtain ⟨snk', hloop, hw', hleft⟩ :=
          ih hw.of_cons (show ((b :: left).drop nwritten.toNat).length ≤ _ by omega) (by omega)
        refine ⟨snk', ?_, hw', ?_⟩
        · rw [if_neg (by omega)]
          exact hloop
        · rw [hk, calls_answered (by intro heq; cases heq)]
          omega
      · -- interrupted
        have heintr : snk₁.errno = .EINTR := by
          cases herr : snk₁.errno with
          | EINTR => rfl
          | other =>
            rw [herr] at hk
            exact absurd (hk ▸ List.mem_cons_self) hw.unfailing
        rw [hk, heintr] at hw hcalls hfuel
        rw [calls_interrupted] at hcalls
        rw [List.length_cons] at hfuel
        obtain ⟨snk', hloop, hw', hleft⟩ := ih hw.of_cons hcalls (by omega)
        refine ⟨snk', ?_, hw', ?_⟩
        · rw [if_pos (by omega), if_pos heintr]
          exact hloop
        · rw [hk, heintr, calls_interrupted]
          exact hleft

/-- `rio_writen` returns the count exactly if it has written all bytes, once and in order, and
otherwise it has written only the first of them. If the system goes on taking bytes, it does the
former. -/
theorem writen_once (bytes : List α) (snk : Sink α) :
    (∀ rc snk', writen bytes snk = some (rc, snk') →
      rc = bytes.length ∧ snk'.bytes = snk.bytes ++ bytes ∨
        rc = -1 ∧ ∃ k < bytes.length, snk'.bytes = snk.bytes ++ bytes.take k) ∧
    (Willing snk.answers → bytes.length ≤ calls snk.answers →
      ∃ snk', writen bytes snk = some ((bytes.length : ℤ), snk')) := by
  constructor
  · intro rc snk' h
    exact writenLoop_spec h
  · intro hw hcalls
    obtain ⟨snk', hloop, -⟩ := writenLoop_of_willing (n := bytes.length) hw hcalls
      (Nat.lt_succ_self snk.answers.length)
    exact ⟨snk', hloop⟩

theorem writen_once_pieces :
    (∀ rc snk', writen [1, 2, 3] ⟨[0], .other, [.moves 2, .fails .EINTR, .moves 1]⟩ = some (rc, snk') →
      rc = 3 ∧ snk'.bytes = [0, 1, 2, 3] ∨
        rc = -1 ∧ ∃ k < 3, snk'.bytes = [0] ++ [1, 2, 3].take k) ∧
    ∃ snk' : Sink ℕ, writen [1, 2, 3] ⟨[0], .other, [.moves 2, .moves 1, .moves 1]⟩ = some (3, snk') :=
  ⟨(writen_once [1, 2, 3] ⟨[0], .other, [.moves 2, .fails .EINTR, .moves 1]⟩).1,
    (writen_once [1, 2, 3] ⟨[0], .other, [.moves 2, .moves 1, .moves 1]⟩).2
      ⟨by decide, by decide⟩ (by decide)⟩

end Rio

end Writing

/-! ## The loop of send_request -/

/-- How the loop ends; a wrapper ends the process. -/
inductive Ending
  | returned
  | exited
deriving DecidableEq

/-- The loop of `send_request`: its locals, the server it reads from, and the client. -/
structure Relaying where
  st : Relay
  rp : Rio UInt8
  snk : Sink UInt8

/-- The body of the loop. -/
def Relaying.turn (x : Relaying) : Option (Option Ending × Relaying) :=
  match x.rp.readnb MAXBUF with
  | none => none
  | some (connfd, got, rp) =>
    if connfd < 0 then some (some .exited, { x with rp := rp })
    else
      (x.st.turn got).bind fun st =>
        (Rio.writen (st.response.take connfd.toNat) x.snk).map fun (rc, snk) =>
          if rc ≠ connfd then (some .exited, ⟨st, rp, snk⟩)
          else (if 0 < connfd then none else some .returned, ⟨st, rp, snk⟩)

def Relaying.loop : (fuel : ℕ) → Relaying → Option (Ending × Relaying)
  | 0, _ => none
  | fuel + 1, x =>
    x.turn.bind fun
      | (none, x) => loop fuel x
      | (some ending, x) => some (ending, x)

namespace Relaying
variable {x x' : Relaying} {R response cacheContent buf : List UInt8} {src : Source UInt8}
  {snk : Sink UInt8} {ending : Option Ending} {final : Ending} {fuel : ℕ} {st : Relay}
  {chunk : List UInt8}

/-- A turn forwards what it has read. -/
lemma take_response (h : x.st.turn chunk = some st) : st.response.take chunk.length = chunk := by
  rw [Relay.turn] at h
  obtain ⟨content, -, rfl⟩ := Option.map_eq_some_iff.1 h
  exact List.take_left

/-- Whatever happens in a turn, the client has been sent the next bytes; all that was read, if
the loop goes on, and everything if it returns. -/
lemma turn_spec (h : x.rp.Valid) (hturn : x.turn = some (ending, x')) :
    x'.rp.Valid ∧ ∃ t u, x.rp.rest = t ++ u ∧ x'.snk.bytes = x.snk.bytes ++ t ∧
      (ending = none → x'.rp.rest = u) ∧ (ending = some .returned → u = []) := by
  rw [turn] at hturn
  split at hturn
  · cases hturn
  · rename_i connfd got rp hread
    obtain ⟨hvalid, happend, hrc⟩ := Rio.readnb_spec h hread
    by_cases hneg : connfd < 0
    · rw [if_pos hneg] at hturn
      cases hturn
      refine ⟨hvalid, [], x.rp.rest, rfl, (List.append_nil _).symm, ?_, ?_⟩
      · intro heq
        cases heq
      · intro heq
        cases heq
    · rw [if_neg hneg] at hturn
      obtain ⟨st, hst, hturn⟩ := Option.bind_eq_some_iff.1 hturn
      obtain ⟨⟨rc, snk⟩, hwrite, hturn⟩ := Option.map_eq_some_iff.1 hturn
      obtain ⟨hconnfd, hgot⟩ : connfd = got.length ∧ got = x.rp.rest.take MAXBUF := by
        rcases hrc with hrc | hrc
        · exact hrc
        · omega
      rw [hconnfd, Int.toNat_natCast, take_response hst] at hwrite
      dsimp only at hturn
      obtain ⟨hrc, hbytes⟩ | ⟨hrc, k, -, hbytes⟩ := Rio.writenLoop_spec hwrite
      · rw [if_neg (not_not.2 (hrc.trans hconnfd.symm))] at hturn
        cases hturn
        refine ⟨hvalid, got, rp.rest, happend, hbytes, fun _ => rfl, ?_⟩
        intro hend
        -- nothing was read, so nothing is left
        have hnone : ¬ 0 < connfd := by
          intro hpos
          rw [if_pos hpos] at hend
          cases hend
        have hlength := congrArg List.length hgot
        have hmax := MAXBUF_pos
        rw [List.length_take] at hlength
        have hnil : x.rp.rest = [] := List.length_eq_zero_iff.1 (by omega)
        rw [hnil] at happend
        exact (List.append_eq_nil_iff.1 happend.symm).2
      · -- the client got a part of the chunk
        rw [if_pos (by omega)] at hturn
        cases hturn
        refine ⟨hvalid, got.take k, got.drop k ++ rp.rest, ?_, hbytes, ?_, ?_⟩
        · rw [happend, ← List.append_assoc, List.take_append_drop]
        · intro heq
          cases heq
        · intro heq
          cases heq

/-- However the server's bytes arrive and the client takes them, and wherever a call fails: the
client has been sent the first bytes of the answer, without a gap or a repetition, and the whole
answer if the loop ends by itself. -/
theorem sent_prefix (h : x.rp.Valid) (hloop : loop fuel x = some (final, x')) :
    ∃ t u, x.rp.rest = t ++ u ∧ x'.snk.bytes = x.snk.bytes ++ t ∧
      (final = .returned → u = []) := by
  induction fuel generalizing x with
  | zero => cases hloop
  | succ fuel ih =>
    obtain ⟨⟨ending, y⟩, hturn, hrest⟩ := Option.bind_eq_some_iff.1 hloop
    obtain ⟨hvalid, t, u, hsplit, hbytes, hnext, hend⟩ := turn_spec h hturn
    cases ending with
    | none =>
      obtain ⟨t', u', hsplit', hbytes', hfinal⟩ := ih hvalid hrest
      refine ⟨t ++ t', u', ?_, ?_, hfinal⟩
      · rw [hsplit, ← hnext rfl, hsplit', List.append_assoc]
      · rw [hbytes', hbytes, List.append_assoc]
    | some ending =>
      cases hrest
      exact ⟨t, u, hsplit, hbytes, fun heq => hend (by rw [heq])⟩

/-- A turn in which no call fails is a turn over the next chunk of the stream. -/
lemma turn_eq (h : x.rp.Steady) (hw : Willing x.snk.answers)
    (hreads : MAXBUF < calls x.rp.answers)
    (hwrites : (x.rp.rest.take MAXBUF).length ≤ calls x.snk.answers) :
    ∃ rp snk, rp.Steady ∧ rp.rest = x.rp.rest.drop MAXBUF ∧ Willing snk.answers ∧
      calls x.rp.answers ≤ calls rp.answers + (MAXBUF + 1) ∧
      calls x.snk.answers ≤ calls snk.answers + (x.rp.rest.take MAXBUF).length ∧
      snk.bytes = x.snk.bytes ++ x.rp.rest.take MAXBUF ∧
      x.turn = (x.st.turn (x.rp.rest.take MAXBUF)).map fun st =>
        (if 0 < (x.rp.rest.take MAXBUF).length then none else some .returned, ⟨st, rp, snk⟩) := by
  obtain ⟨⟨connfd, got, rp⟩, hread⟩ := Option.isSome_iff_exists.1 (Rio.isSome_readnb h.1 hreads)
  obtain ⟨hsteady, happend, hgot, hconnfd, hcalls⟩ := h.readnb_eq hread
  rw [← hgot] at hwrites ⊢
  obtain ⟨snk, hwrite, hw', hcalls'⟩ := Rio.writenLoop_of_willing (n := got.length) hw hwrites
    (Nat.lt_succ_self x.snk.answers.length)
  have hbytes : snk.bytes = x.snk.bytes ++ got := by
    obtain ⟨-, hbytes⟩ | ⟨hrc, -⟩ := Rio.writenLoop_spec hwrite
    · exact hbytes
    · omega
  have hrest : rp.rest = x.rp.rest.drop MAXBUF := by
    have hsplit := List.take_append_drop MAXBUF x.rp.rest
    rw [← hgot] at hsplit
    exact List.append_cancel_left (happend.symm.trans hsplit.symm)
  refine ⟨rp, snk, hsteady, hrest, hw', hcalls, hcalls', hbytes, ?_⟩
  rw [turn, hread]
  dsimp only
  rw [if_neg (by omega)]
  cases hst : x.st.turn got with
  | none => rfl
  | some st =>
    have hwrite' : Rio.writen (st.response.take connfd.toNat) x.snk = some (connfd, snk) := by
      rw [hconnfd, Int.toNat_natCast, take_response hst]
      exact hwrite
    rw [Option.bind_some, hwrite', Option.map_some, Option.map_some]
    dsimp only
    rw [if_neg (not_not.2 rfl), hconnfd]
    simp only [Nat.cast_pos]

/-- By induction on the chunks. -/
lemma loop_eq (hR : x.rp.rest = R) (h : x.rp.Steady) (hw : Willing x.snk.answers)
    (hreads : (reads R).length * (MAXBUF + 1) ≤ calls x.rp.answers)
    (hwrites : R.length ≤ calls x.snk.answers) (hfuel : (reads R).length ≤ fuel) :
    ∃ rp snk, snk.bytes = x.snk.bytes ++ R ∧
      loop fuel x = (x.st.loop (reads R)).map fun st => (.returned, ⟨st, rp, snk⟩) := by
  induction R using reads.induct generalizing x fuel with
  | case1 =>
    rw [reads_nil] at hreads hfuel ⊢
    obtain ⟨fuel, rfl⟩ : ∃ m, fuel = m + 1 := ⟨fuel - 1, by
      rw [List.length_singleton] at hfuel
      omega⟩
    rw [List.length_singleton, Nat.one_mul] at hreads
    obtain ⟨rp, snk, -, -, -, -, -, hbytes, hturn⟩ := turn_eq h hw hreads (by simp [hR])
    rw [hR, List.take_nil] at hbytes hturn
    refine ⟨rp, snk, hbytes, ?_⟩
    rw [loop, hturn, Relay.loop]
    cases x.st.turn [] with
    | none => rfl
    | some st => rfl
  | case2 R hne ih =>
    rw [reads_of_ne_nil hne] at hreads hfuel ⊢
    rw [List.length_cons] at hreads hfuel
    obtain ⟨fuel, rfl⟩ : ∃ m, fuel = m + 1 := ⟨fuel - 1, by omega⟩
    have htake : (R.take MAXBUF).length + (R.drop MAXBUF).length = R.length := by
      rw [← List.length_append, List.take_append_drop]
    have hchunk : 0 < (R.take MAXBUF).length := by
      have := List.length_pos_of_ne_nil hne
      have := MAXBUF_pos
      rw [List.length_take]
      omega
    rw [Nat.add_mul, Nat.one_mul] at hreads
    subst hR
    obtain ⟨rp, snk, hsteady, hrest, hw', hcalls, hcalls', hbytes, hturn⟩ :=
      turn_eq h hw (by omega) (by omega)
    rw [loop, hturn, Relay.loop]
    cases hst : x.st.turn (x.rp.rest.take MAXBUF) with
    | none => exact ⟨rp, ⟨x.snk.bytes ++ x.rp.rest, .other, []⟩, rfl, rfl⟩
    | some st =>
      obtain ⟨rp', snk', hbytes', hloop⟩ :=
        ih (x := ⟨st, rp, snk⟩) hrest hsteady hw' (by show _ ≤ calls rp.answers; omega)
          (by show _ ≤ calls snk.answers; omega)
          (show (reads (x.rp.rest.drop MAXBUF)).length ≤ fuel by omega)
      refine ⟨rp', snk', ?_, ?_⟩
      · rw [hbytes']
        show snk.bytes ++ _ = _
        rw [hbytes, List.append_assoc, List.take_append_drop]
      · rw [Option.map_some, Option.bind_some, Option.bind_some, if_pos hchunk, if_pos hchunk]
        exact hloop

/-- The loop as `send_request` starts it. -/
def start (answers : List Answer) (R response cacheContent buf : List UInt8)
    (snk : Sink UInt8) : Relaying :=
  ⟨⟨response, cacheContent.set 0 0, 0, []⟩, Rio.readinitb ⟨R, answers⟩ buf, snk⟩

/-- However the server's bytes arrive and the client takes them, and wherever a call fails: the
client has been sent the first bytes of the answer, without a gap or a repetition, and the whole
answer if the loop ends by itself. -/
theorem client_gets_prefix {answers : List Answer} (hbuf : buf.length = RIO_BUFSIZE)
    (hloop : loop fuel (start answers R response cacheContent buf snk) = some (final, x')) :
    ∃ t, t <+: R ∧ x'.snk.bytes = snk.bytes ++ t ∧ (final = .returned → t = R) := by
  obtain ⟨t, u, hsplit, hbytes, hend⟩ := sent_prefix (Rio.valid_init _ hbuf) hloop
  have hR : R = t ++ u := (Rio.rest_init ⟨R, answers⟩ buf).symm.trans hsplit
  refine ⟨t, ⟨u, hR.symm⟩, hbytes, ?_⟩
  intro hreturned
  rw [hR, hend hreturned, List.append_nil]

/-- The client takes a byte, and then it is gone. -/
theorem client_gets_prefix_gone : ∃ x', loop 1 (start [.moves 1, .fails .EINTR, .moves 5, .moves 1]
      [72, 105] [1, 0, 0, 0] [1, 0, 0, 0] (List.replicate 8192 0)
        ⟨[], .other, [.moves 1, .fails .other]⟩) = some (.exited, x') ∧
    ∃ t, t <+: [72, 105] ∧ x'.snk.bytes = [] ++ t ∧ (Ending.exited = .returned → t = [72, 105]) := by
  have hexits : (loop 1 (start [.moves 1, .fails .EINTR, .moves 5, .moves 1]
      [72, 105] [1, 0, 0, 0] [1, 0, 0, 0] (List.replicate 8192 0)
        ⟨[], .other, [.moves 1, .fails .other]⟩)).map Prod.fst = some .exited := by decide +kernel
  obtain ⟨⟨_, x'⟩, hloop, rfl⟩ := Option.map_eq_some_iff.1 hexits
  exact ⟨x', hloop, client_gets_prefix List.length_replicate hloop⟩

/-- If no call fails, the loop over the robust functions is the loop over the chunks of the
answer, whatever pieces the answer arrives in and is taken in: it makes the same of the arrays,
goes wrong where the other does, and the client is sent the answer. -/
theorem loop_is_relay {answers : List Answer} (hbuf : buf.length = RIO_BUFSIZE)
    (hun : Unfailing answers) (hw : Willing snk.answers)
    (hreads : (reads R).length * (MAXBUF + 1) ≤ calls answers)
    (hwrites : R.length ≤ calls snk.answers) (hfuel : (reads R).length ≤ fuel) :
    ∃ rp snk', snk'.bytes = snk.bytes ++ R ∧
      loop fuel (start answers R response cacheContent buf snk) =
        (relay R response cacheContent).map fun st => (.returned, ⟨st, rp, snk'⟩) :=
  loop_eq (x := start answers R response cacheContent buf snk) (Rio.rest_init ⟨R, answers⟩ buf)
    ⟨Rio.valid_init _ hbuf, hun⟩ hw hreads hwrites hfuel

/-- Three bytes arrive in two pieces, and the client takes them in two. -/
theorem loop_is_relay_pieces : ∃ rp snk', snk'.bytes = [7] ++ [72, 105, 0] ∧
    loop 2 (start (List.replicate 16386 (.moves 2)) [72, 105, 0] (List.replicate MAXBUF 67)
        (List.replicate MAX_OBJECT_SIZE 67) (List.replicate 8192 0)
        ⟨[7], .other, [.moves 2, .fails .EINTR, .moves 9, .moves 1]⟩) =
      (relay [72, 105, 0] (List.replicate MAXBUF 67) (List.replicate MAX_OBJECT_SIZE 67)).map
        fun st => (.returned, ⟨st, rp, snk'⟩) := by
  have hreads : (reads [72, 105, 0]).length = 2 := by
    rw [reads_of_ne_nil (List.cons_ne_nil _ _), List.length_cons, List.drop_eq_nil_of_le (by decide),
      reads_nil, List.length_singleton]
  have hcalls : calls (List.replicate 16386 (.moves 2)) = 16386 := by
    rw [calls, List.countP_replicate, if_pos (by decide)]
  have hun : Unfailing (List.replicate 16386 (.moves 2)) := by
    intro hmem
    cases List.eq_of_mem_replicate hmem
  have hw : Willing (⟨[7], .other, [.moves 2, .fails .EINTR, .moves 9, .moves 1]⟩ :
      Sink UInt8).answers := ⟨by decide, by decide⟩
  exact loop_is_relay List.length_replicate hun hw (by rw [hreads, hcalls]; decide)
    (show 3 ≤ 3 from le_rfl) (by rw [hreads])

end Relaying

/-! ## The request line -/

section RequestLine
variable {a : Arrays} {buf : List Char} {src : Source Char}

/-- `process_request` behind its `Rio_readlineb`. -/
def Arrays.request (a : Arrays) : Request :=
  let a := scanHost (scanRequest a)
  let (host, path, port) := split a.host a.path
  ⟨stringAt a.uri 0, stringAt host 0, stringAt path 0, port⟩

/-- `process_request`, where `none` is the end of the process in `Rio_readlineb`. -/
def receiveRequest (a : Arrays) (rp : Rio Char) : Option (Option Request × Rio Char) :=
  (rp.readlineb '\n' MAXLINE).map fun (size, line, rp) =>
    if size < 0 then (none, rp)
    else (some { a with buf := if 0 < size then store a.buf line else a.buf }.request, rp)

/-- The ideal line is what `fgets` would read. -/
lemma lineOf_newline (k : ℕ) (l : List Char) : Rio.lineOf '\n' k l = readline k l := by
  induction k generalizing l with
  | zero => rfl
  | succ k ih =>
    cases l with
    | nil => rfl
    | cons c l =>
      rw [Rio.lineOf_cons, readline, ih]

/-- The count is positive where something has been read. -/
lemma lineCount_pos_iff {k : ℕ} (hk : 0 < k) (line : List Char) :
    0 < Rio.lineCount '\n' k line ↔ line ≠ [] := by
  unfold Rio.lineCount
  constructor
  · intro h hnil
    rw [if_pos ⟨hnil, hk⟩] at h
    exact absurd h (lt_irrefl 0)
  · intro h
    have hpos := List.length_pos_of_ne_nil h
    rw [if_neg (fun hnil => h hnil.1)]
    split_ifs <;> omega

lemma lineCount_nonneg (k : ℕ) (line : List Char) : 0 ≤ Rio.lineCount '\n' k line := by
  unfold Rio.lineCount
  split_ifs <;> omega

/-- If no `read` fails, the request is the one in the bytes that the client sends, whatever
pieces they arrive in, and what follows its line is left for later. -/
theorem receiveRequest_eq (hbuf : buf.length = RIO_BUFSIZE) (hun : Unfailing src.answers)
    (hcalls : MAXLINE - 1 ≤ calls src.answers) (a : Arrays) :
    ∃ rp, receiveRequest a (Rio.readinitb src buf) = some (some (processRequest a src.bytes), rp) ∧
      src.bytes = readline (MAXLINE - 1) src.bytes ++ rp.rest := by
  have hsteady : (Rio.readinitb src buf).Steady := ⟨Rio.valid_init src hbuf, hun⟩
  obtain ⟨rp, hrun, -, hrest, -⟩ :=
    Rio.Call.run_ideal '\n' (c := .readlineb MAXLINE) hsteady hcalls
  rw [Rio.rest_init] at hrun hrest
  have hline : (Rio.Call.ideal '\n' (.readlineb MAXLINE) src.bytes).2 =
      readline (MAXLINE - 1) src.bytes := lineOf_newline _ _
  have hkeep := (Rio.Call.run_spec (Rio.valid_init src hbuf) hrun).2
  rw [Rio.rest_init, hline] at hkeep
  refine ⟨rp, ?_, hkeep⟩
  have hrun' : Rio.readlineb '\n' MAXLINE (Rio.readinitb src buf) = _ := hrun
  rw [receiveRequest, hrun', Option.map_some]
  have hcount : (Rio.Call.ideal '\n' (.readlineb MAXLINE) src.bytes).1 =
      Rio.lineCount '\n' (MAXLINE - 1) (readline (MAXLINE - 1) src.bytes) := by
    rw [← lineOf_newline]
    rfl
  dsimp only
  rw [hcount, hline, if_neg (not_lt.2 (lineCount_nonneg _ _))]
  have hbuf' : (if 0 < Rio.lineCount '\n' (MAXLINE - 1) (readline (MAXLINE - 1) src.bytes)
      then store a.buf (readline (MAXLINE - 1) src.bytes) else a.buf) =
      rioReadlineb a.buf src.bytes := by
    rw [rioReadlineb]
    by_cases hnil : readline (MAXLINE - 1) src.bytes = []
    · rw [if_neg (fun hpos => (lineCount_pos_iff (by decide) _).1 hpos hnil), if_pos hnil]
    · rw [if_pos ((lineCount_pos_iff (by decide) _).2 hnil), if_neg hnil]
  rw [hbuf']
  rfl

/-- A request line that arrives in small pieces, while all arrays are full. -/
theorem receiveRequest_eq_line :
    let line := "GET http://a.b:80/c HTTP/1.0\r\n".toList
    let full := List.replicate 8192 'x'
    ∃ rp, receiveRequest ⟨full, full, full, full, full, full⟩
        (Rio.readinitb ⟨line ++ "Host: a.b\r\n".toList, List.replicate 8191 (.moves 5)⟩ full) =
      some (some (processRequest ⟨full, full, full, full, full, full⟩
        (line ++ "Host: a.b\r\n".toList)), rp) ∧
      line ++ "Host: a.b\r\n".toList =
        readline (MAXLINE - 1) (line ++ "Host: a.b\r\n".toList) ++ rp.rest := by
  have hcalls : calls (List.replicate 8191 (.moves 5)) = 8191 := by
    rw [calls, List.countP_replicate, if_pos (by decide)]
  apply receiveRequest_eq List.length_replicate
  · exact fun hmem => by cases List.eq_of_mem_replicate hmem
  · exact (Nat.le_of_eq hcalls.symm)

end RequestLine

end Proxylab
end SystemsLabs
