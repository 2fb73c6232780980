import SystemsLabs.Malloclab.Basic
import SystemsLabs.Memory.AbstractAllocator

/-!
# Runs of an allocator under its clients

The three allocators offer the same interface, so runs are defined once for all of them.
The state of a run is the heap, the allocator's global `heap_ptr`, and which pointers the
clients hold, each with the number of bytes it was asked for. A client frees and
reallocates only `NULL` and pointers it holds, asks for less than `2 ^ 31` bytes and
writes only bytes that it asked for (`Legal`). Memlib may refuse any request for more
heap, and what `memcpy` reads outside the heap is arbitrary (`Env`).
-/

namespace SystemsLabs
namespace Malloclab

open Memory

/-- The functions of `mm.h`. Those that use the global `heap_ptr` take its value. -/
structure Allocator where
  mmInit : (grant₁ grant₂ : Bool) → HeapM (Option ℕ)
  malloc : (heapPtr : ℕ) → (grant : Bool) → ℕ → HeapM (Option ℕ)
  free : (heapPtr : ℕ) → Option ℕ → HeapM Unit
  realloc : (heapPtr : ℕ) → (grant : Bool) → (ℕ → UInt8) → Option ℕ → ℕ → HeapM (Option ℕ)

/-- How the surroundings of the allocator behave during one call. -/
structure Env where
  grant : Bool
  junk : ℕ → UInt8

/-- The state of a run. -/
structure State where
  seg : Segment
  heapPtr : ℕ
  live : ℕ → Option ℕ

namespace State

/-- The pointer `r` is handed out for `n` bytes, unless it is `NULL`. -/
def gain (live : ℕ → Option ℕ) (r : Option ℕ) (n : ℕ) : ℕ → Option ℕ :=
  match r with
  | none => live
  | some p => Function.update live p (some n)

/-- The pointer `p` is given back, unless it is `NULL`. -/
def lose (live : ℕ → Option ℕ) (p : Option ℕ) : ℕ → Option ℕ :=
  match p with
  | none => live
  | some p => Function.update live p none

/-- The size of the block whose payload is at `p`. -/
def blockSize (s : State) (p : ℕ) : ℕ := s.seg.word (p - 1) &&& 0xFFFFFFF8

/-- The number of payload bytes of the block whose header is the word before `p`. -/
def payloadSize (s : State) (p : ℕ) : ℕ := (s.seg.word (p - 1) &&& 0xFFFFFFF8) - 2 * WSIZE

/-- The payload bytes at `p`. -/
def payload (s : State) (p : ℕ) : List UInt8 :=
  (List.range (s.payloadSize p)).map fun i => s.seg.bytes (WSIZE * p + i)

/-- The abstract allocator's view of a state. -/
def payloads (s : State) : Payloads ℕ := fun p => (s.live p).map fun _ => s.payload p

@[simp] lemma isSome_payloads (s : State) (p : ℕ) : (s.payloads p).isSome = (s.live p).isSome := by
  simp [payloads]

/-- The blocks that clients hold: the size of the block at each live pointer. -/
def allocated (s : State) : ℕ → Option ℕ := fun p =>
  (s.live p).map fun _ => s.seg.word (p - 1) &&& 0xFFFFFFF8

end State

/-- What a client may do. -/
def Legal (s : State) : Call ℕ → Prop
  | .malloc n => n < 2 ^ 31
  | .free p => ∀ q ∈ p, (s.live q).isSome
  | .realloc p n => (∀ q ∈ p, (s.live q).isSome) ∧ n < 2 ^ 31
  | .write p i _ => ∃ n ∈ s.live p, i < n

instance (s : State) : DecidablePred (Legal s)
  | .malloc n => inferInstanceAs (Decidable (n < 2 ^ 31))
  | .free p => inferInstanceAs (Decidable (∀ q ∈ p, (s.live q).isSome))
  | .realloc p n => inferInstanceAs (Decidable ((∀ q ∈ p, (s.live q).isSome) ∧ n < 2 ^ 31))
  | .write p i _ => inferInstanceAs (Decidable (∃ n ∈ s.live p, i < n))

/-- Serves a call: its answer and the state after it, or `none` if the code goes wrong. -/
def serve (A : Allocator) (env : Env) (s : State) : Call ℕ → Option (Option ℕ × State)
  | .malloc n =>
    ((A.malloc s.heapPtr env.grant n).run s.seg).map fun (r, seg) =>
      (r, { s with seg := seg, live := State.gain s.live r n })
  | .free p =>
    ((A.free s.heapPtr p).run s.seg).map fun (_, seg) =>
      (none, { s with seg := seg, live := State.lose s.live p })
  | .realloc p n =>
    ((A.realloc s.heapPtr env.grant env.junk p n).run s.seg).map fun (r, seg) =>
      (r, { s with
        seg := seg
        live := if n = 0 then State.lose s.live p
          else if r.isSome then State.gain (State.lose s.live p) r n else s.live })
  | .write p i v =>
    some (none, { s with seg := { s.seg with bytes := s.seg.bytes.setByte (WSIZE * p + i) v } })

/-- The states of the runs that begin with a successful `mm_init` on an empty heap that may
grow to `cap` bytes, and in which every call satisfies `P` in the state it is made in. -/
inductive Reachable (A : Allocator) (cap : ℕ) (P : State → Call ℕ → Prop) : State → Prop
  | init {bytes grant₁ grant₂ heapPtr seg}
      (h : (A.mmInit grant₁ grant₂).run ⟨bytes, 0, cap⟩ = some (some heapPtr, seg)) :
      Reachable A cap P ⟨seg, heapPtr, fun _ => none⟩
  | step {s env call r s'} (hs : Reachable A cap P s) (hcall : P s call)
      (h : serve A env s call = some (r, s')) : Reachable A cap P s'

/-! ## Runs on given inputs -/

/-- The state after several calls, each of which the client may make. -/
def serveAll (A : Allocator) (env : Env) : State → List (Call ℕ) → Option State
  | s, [] => some s
  | s, call :: calls =>
    if Legal s call then (serve A env s call).bind fun (_, s') => serveAll A env s' calls else none

/-- The state after `mm_init` and several calls, on zeroed memory and with every request for
more heap served. -/
def after (A : Allocator) (cap : ℕ) (calls : List (Call ℕ)) : Option State :=
  match (A.mmInit true true).run ⟨fun _ => 0, 0, cap⟩ with
  | some (some heapPtr, seg) => serveAll A ⟨true, fun _ => 0⟩ ⟨seg, heapPtr, fun _ => none⟩ calls
  | _ => none

variable {A : Allocator} {cap : ℕ} {P : State → Call ℕ → Prop}

lemma Reachable.serveAll {env : Env} {calls : List (Call ℕ)} {s s' : State}
    (hP : ∀ s, ∀ call ∈ calls, Legal s call → P s call) (hs : Reachable A cap P s)
    (h : serveAll A env s calls = some s') : Reachable A cap P s' := by
  induction calls generalizing s with
  | nil =>
    cases h
    exact hs
  | cons call calls ih =>
    rw [Malloclab.serveAll] at h
    split at h
    · next hlegal =>
      obtain ⟨⟨r, s₁⟩, hserve, hrest⟩ := Option.bind_eq_some_iff.1 h
      exact ih (fun s c hc => hP s c (List.mem_cons_of_mem _ hc))
        (.step hs (hP s call List.mem_cons_self hlegal) hserve) hrest
    · cases h

lemma reachable_after_of {calls : List (Call ℕ)}
    (hP : ∀ s, ∀ call ∈ calls, Legal s call → P s call) (h : (after A cap calls).isSome) :
    Reachable A cap P ((after A cap calls).get h) := by
  have hget := (Option.some_get h).symm
  generalize (after A cap calls).get h = s at hget
  unfold after at hget
  split at hget
  · next hrun => exact (Reachable.init hrun).serveAll hP hget
  · cases hget

lemma reachable_after {calls : List (Call ℕ)} (h : (after A cap calls).isSome) :
    Reachable A cap Legal ((after A cap calls).get h) :=
  reachable_after_of (fun _ _ _ h => h) h

end Malloclab
end SystemsLabs
