import SystemsLabs.Malloclab.ListBased
import SystemsLabs.Memory.Links

/-!
# The free lists of `mm-explicit.c` and `mm-seglist.c`

`Lists f rd M` says that the words `rd` hold doubly linked lists with exactly the members
`M`: `M h q` is to say that the block at `q` is on the list of the head `h`. A `Format`
is what distinguishes the two files: where the heads are, where their next links are
stored, and to which list a block belongs by its size.

Members are cells of four words that do not overlap, and of which only the second and third
are links. Nothing here depends on the boundary tags but for one bit of each header, by
which the code tells a member from the end of the list.
-/

namespace SystemsLabs
namespace Malloclab

open Memory Layout

/-- How an allocator keeps its free lists. -/
structure Format where
  /-- The heads of the lists. -/
  heads : List ℕ
  /-- Where the next link of a head or of a block is stored. -/
  slot : ℕ → ℕ
  /-- The epilogue, at which every list ends. The first block follows it. -/
  last : ℕ
  /-- The head of the list for blocks of the given size. -/
  head : ℕ → ℕ
  /-- The tag of the prologue. -/
  prologue : ℕ
  head_mem : ∀ n, head n ∈ heads
  head_lt : ∀ h ∈ heads, h < last
  slot_lt : ∀ h ∈ heads, slot h < last
  slot_ne : ∀ h ∈ heads, slot h ≠ 1
  slot_inj : ∀ h ∈ heads, ∀ k ∈ heads, slot h = slot k → h = k
  slot_block : ∀ q, last < q → slot q = q + 1
  last_even : last % 2 = 0
  one_lt : 1 < last
  last_lt : last < 2 ^ 20

/-- The previous link of a block. -/
def prv (rd : ℕ → ℕ) (q : ℕ) : ℕ := rd (q + 2) / 4

/-- The next link of a head or of a block. -/
def Format.nxt (f : Format) (rd : ℕ → ℕ) (q : ℕ) : ℕ := rd (f.slot q) / 4

/-- The words `rd` hold the lists with the members `M`. -/
structure Lists (f : Format) (rd : ℕ → ℕ) (M : ℕ → ℕ → Prop) : Prop where
  chain : ∀ h ∈ f.heads, ∃ l : List ℕ, l.Nodup ∧ (∀ q, q ∈ l ↔ M h q) ∧
    Chain (f.nxt rd) (prv rd) h l f.last
  apart : ∀ {h k q r}, M h q → M k r → (h = k ∧ q = r) ∨ q + 4 ≤ r ∨ r + 4 ≤ q
  inside : ∀ {h q}, M h q → h ∈ f.heads ∧ f.last < q

/-- The words that hold the links of the lists with the members `M`. -/
def Link (f : Format) (M : ℕ → ℕ → Prop) (i : ℕ) : Prop :=
  (∃ h ∈ f.heads, i = f.slot h) ∨ ∃ h q, M h q ∧ (i = q + 1 ∨ i = q + 2)

/-- `q` is a head or a member. -/
def Node (f : Format) (M : ℕ → ℕ → Prop) (q : ℕ) : Prop := q ∈ f.heads ∨ ∃ h, M h q

namespace Lists

variable {f : Format} {rd rd' : ℕ → ℕ} {M M' : ℕ → ℕ → Prop} {k x y : ℕ}

lemma congr_mem (h : Lists f rd M) (hM : ∀ k q, M' k q ↔ M k q) : Lists f rd M' := by
  obtain rfl : M' = M := funext fun k => funext fun q => propext (hM k q)
  exact h

/-- Lists survive changes of other words. -/
lemma congr (h : Lists f rd M) (hrd : ∀ i, Link f M i → rd' i = rd i) : Lists f rd' M := by
  refine ⟨fun k hk => ?_, h.apart, h.inside⟩
  obtain ⟨l, hnd, hl, hchain⟩ := h.chain k hk
  refine ⟨l, hnd, hl, ?_⟩
  apply hchain.congr
  · intro q hq
    unfold Format.nxt
    rcases List.mem_cons.1 hq with rfl | hq
    · rw [hrd _ (.inl ⟨q, hk, rfl⟩)]
    · have hq' := (hl q).1 hq
      rw [f.slot_block q (h.inside hq').2, hrd _ (.inr ⟨k, q, hq', .inl rfl⟩)]
  · intro q hq
    unfold prv
    rw [hrd _ (.inr ⟨k, q, (hl q).1 hq, .inr rfl⟩)]

lemma slot_eq (h : Lists f rd M) (hx : M k x) : f.slot x = x + 1 := f.slot_block x (h.inside hx).2

/-- Next links are stored in different words. -/
lemma slot_inj (h : Lists f rd M) (hx : Node f M x) (hy : Node f M y)
    (heq : f.slot x = f.slot y) : x = y := by
  -- heads store their links below the first block, blocks in their second word
  rcases hx with hx | ⟨j, hx⟩ <;> rcases hy with hy | ⟨k, hy⟩
  · exact f.slot_inj x hx y hy heq
  · have := f.slot_lt x hx
    have := (h.inside hy).2
    rw [h.slot_eq hy] at heq
    omega
  · have := f.slot_lt y hy
    have := (h.inside hx).2
    rw [h.slot_eq hx] at heq
    omega
  · rw [h.slot_eq hx, h.slot_eq hy] at heq
    omega

/-- A next link is not stored where a previous link is. -/
lemma slot_ne_prev (h : Lists f rd M) (hx : Node f M x) (hy : M k y) : f.slot x ≠ y + 2 := by
  have hlt := (h.inside hy).2
  rcases hx with hx | ⟨j, hx⟩
  · have := f.slot_lt x hx
    omega
  · rw [h.slot_eq hx]
    rcases h.apart hx hy with ⟨-, rfl⟩ | h | h
    · omega
    · omega
    · omega

/-- A member is on one list only. -/
lemma head_eq (h : Lists f rd M) {j : ℕ} (hx : M k x) (hx' : M j x) : j = k := by
  rcases h.apart hx hx' with h | h | h
  · exact h.1.symm
  · omega
  · omega

/-- What is next to a member on its list. -/
lemma neighbours (h : Lists f rd M) (hx : M k x) :
    (prv rd x = k ∨ (M k (prv rd x) ∧ prv rd x ≠ x)) ∧
      (f.nxt rd x = f.last ∨ (M k (f.nxt rd x) ∧ f.nxt rd x ≠ x)) := by
  obtain ⟨l, hnd, hl, hchain⟩ := h.chain k (h.inside hx).1
  obtain ⟨l₁, l₂, rfl⟩ := List.append_of_mem ((hl x).2 hx)
  have hx₁ : x ∉ l₁ := fun hx₁ => List.disjoint_of_nodup_append hnd hx₁ List.mem_cons_self
  have hx₂ : x ∉ l₂ := (List.nodup_cons.1 (List.nodup_append.1 hnd).2.1).1
  constructor
  · have hmem : prv rd x ∈ k :: l₁ := by
      rw [hchain.prv_eq]
      exact getLastD_mem
    rcases List.mem_cons.1 hmem with hk | hmem
    · exact .inl hk
    · exact .inr ⟨(hl _).1 (List.mem_append_left _ hmem), fun h => hx₁ (h ▸ hmem)⟩
  · rcases hchain.tail.nxt_eq with hmem | hlast
    · refine .inr ⟨(hl _).1 (List.mem_append_right _ (List.mem_cons_of_mem _ hmem)), fun h => ?_⟩
      exact hx₂ (by rwa [h] at hmem)
    · exact .inl hlast

/-- Of the links of the lists only the next link of `p`, the previous link of `n` (if that is
not the end) and those of `y` have changed; `p` and `n` are on the list of `k`. -/
structure Changed (f : Format) (rd rd' : ℕ → ℕ) (M : ℕ → ℕ → Prop) (k p n y : ℕ) : Prop where
  head : k ∈ f.heads
  before : p = k ∨ M k p
  behind : n = f.last ∨ M k n
  inside : f.last < y
  apart : ∀ {j q}, M j q → (j = k ∧ q = y) ∨ q + 4 ≤ y ∨ y + 4 ≤ q
  same : ∀ i, i ≠ f.slot p → (n ≠ f.last → i ≠ n + 2) → i ≠ y + 1 → i ≠ y + 2 → rd' i = rd i

namespace Changed

variable {p n : ℕ}

lemma node_before (hc : Changed f rd rd' M k p n y) : Node f M p := by
  rcases hc.before with rfl | hp
  · exact .inl hc.head
  · exact .inr ⟨k, hp⟩

lemma nxt_same (hc : Changed f rd rd' M k p n y) (h : Lists f rd M) {q : ℕ} (hq : Node f M q)
    (hqy : q ≠ y) (hqp : q ≠ p) : f.nxt rd' q = f.nxt rd q := by
  have hslot : f.slot q ≠ f.slot p := fun heq => hqp (h.slot_inj hq hc.node_before heq)
  have hprev : n ≠ f.last → f.slot q ≠ n + 2 := fun hn =>
    h.slot_ne_prev hq (hc.behind.resolve_left hn)
  have hlt := hc.inside
  have hy : f.slot q ≠ y + 1 ∧ f.slot q ≠ y + 2 := by
    rcases hq with hq | ⟨j, hq⟩
    · have := f.slot_lt q hq
      omega
    · rw [h.slot_eq hq]
      have := hc.apart hq
      omega
  unfold Format.nxt
  rw [hc.same _ hslot hprev hy.1 hy.2]

lemma prv_same (hc : Changed f rd rd' M k p n y) (h : Lists f rd M) {j q : ℕ} (hq : M j q)
    (hqy : q ≠ y) (hqn : q ≠ n) : prv rd' q = prv rd q := by
  have hslot : q + 2 ≠ f.slot p := fun heq => h.slot_ne_prev hc.node_before hq heq.symm
  have hapart := hc.apart hq
  unfold prv
  rw [hc.same _ hslot (fun _ => by omega) (by omega) (by omega)]

/-- The other lists are as they were. -/
lemma other (hc : Changed f rd rd' M k p n y) (h : Lists f rd M) {j : ℕ} (hj : j ∈ f.heads)
    (hjk : j ≠ k) {l : List ℕ} (hl : ∀ q, q ∈ l ↔ M j q)
    (hchain : Chain (f.nxt rd) (prv rd) j l f.last) :
    Chain (f.nxt rd') (prv rd') j l f.last := by
  have hlt := f.head_lt j hj
  have hly := hc.inside
  -- what has changed belongs to nodes of the list of `k`, and a member is on one list only
  have hmem : ∀ q ∈ l, q ≠ y ∧ q ≠ p ∧ q ≠ n := by
    intro q hq
    have hq' := (hl q).1 hq
    have hlq := (h.inside hq').2
    refine ⟨?_, ?_, ?_⟩
    · rintro rfl
      rcases hc.apart hq' with h | h | h
      · exact hjk h.1
      · omega
      · omega
    · rintro rfl
      rcases hc.before with rfl | hp
      · have := f.head_lt q hc.head
        omega
      · exact hjk (h.head_eq hp hq')
    · rintro rfl
      rcases hc.behind with rfl | hn
      · omega
      · exact hjk (h.head_eq hn hq')
  apply hchain.congr
  · intro q hq
    rcases List.mem_cons.1 hq with rfl | hq
    · apply hc.nxt_same h (.inl hj) (by omega)
      rcases hc.before with rfl | hp
      · exact hjk
      · have := (h.inside hp).2
        omega
    · exact hc.nxt_same h (.inr ⟨j, (hl q).1 hq⟩) (hmem q hq).1 (hmem q hq).2.1
  · intro q hq
    exact hc.prv_same h ((hl q).1 hq) (hmem q hq).1 (hmem q hq).2.2

end Changed

/-- A list that holds `x`, split at `x`. -/
lemma split (h : Lists f rd M) (hx : M k x) :
    ∃ l₁ l₂, (k :: (l₁ ++ x :: l₂)).Nodup ∧ f.last ∉ l₁ ++ x :: l₂ ∧
      (∀ q, q ∈ l₁ ++ l₂ ↔ M k q ∧ q ≠ x) ∧
      Chain (f.nxt rd) (prv rd) k (l₁ ++ x :: l₂) f.last := by
  obtain ⟨hk, -⟩ := h.inside hx
  obtain ⟨l, hnd, hl, hchain⟩ := h.chain k hk
  obtain ⟨l₁, l₂, rfl⟩ := List.append_of_mem ((hl x).2 hx)
  have hnot : ∀ q, q ∈ l₁ ++ x :: l₂ → f.last < q := fun q hq => (h.inside ((hl q).1 hq)).2
  have hlt := f.head_lt k hk
  have hx' : x ∉ l₁ ++ l₂ := (List.nodup_middle.1 hnd |> List.nodup_cons.1).1
  refine ⟨l₁, l₂, List.nodup_cons.2 ⟨fun hmem => ?_, hnd⟩, fun hmem => ?_, fun q => ?_, hchain⟩
  · have := hnot k hmem
    omega
  · exact absurd (hnot _ hmem) (lt_irrefl _)
  · rw [← hl]
    constructor
    · intro hq
      refine ⟨?_, fun h => hx' (h ▸ hq)⟩
      rcases List.mem_append.1 hq with hq | hq
      · exact List.mem_append_left _ hq
      · exact List.mem_append_right _ (List.mem_cons_of_mem _ hq)
    · rintro ⟨hq, hqx⟩
      rcases List.mem_append.1 hq with hq | hq
      · exact List.mem_append_left _ hq
      · exact List.mem_append_right _ ((List.mem_cons.1 hq).resolve_left hqx)

/-- A member is taken from its list. -/
theorem remove (h : Lists f rd M) (hx : M k x)
    (hp : rd' (f.slot (prv rd x)) / 4 = f.nxt rd x)
    (hn : f.nxt rd x ≠ f.last → rd' (f.nxt rd x + 2) / 4 = prv rd x)
    (hsame : ∀ i, i ≠ f.slot (prv rd x) → (f.nxt rd x ≠ f.last → i ≠ f.nxt rd x + 2) →
      i ≠ x + 1 → i ≠ x + 2 → rd' i = rd i) :
    Lists f rd' fun j q => M j q ∧ q ≠ x := by
  obtain ⟨hbefore, hbehind⟩ := h.neighbours hx
  have hc : Changed f rd rd' M k (prv rd x) (f.nxt rd x) x :=
    ⟨(h.inside hx).1, hbefore.imp_right And.left, hbehind.imp_right And.left, (h.inside hx).2,
      fun hq => h.apart hq hx, hsame⟩
  refine ⟨fun j hj => ?_, fun hq hr => h.apart hq.1 hr.1, fun hq => h.inside hq.1⟩
  rcases eq_or_ne j k with rfl | hjk
  · -- the list of `x` loses it
    obtain ⟨l₁, l₂, hnd, hlast, hl, hchain⟩ := h.split hx
    have hnd' := (List.nodup_cons.1 (List.nodup_middle.1 (List.nodup_cons.1 hnd).2)).2
    refine ⟨l₁ ++ l₂, hnd', hl, ?_⟩
    apply hchain.remove hnd hlast hp
    · intro hmem
      apply hn
      intro heq
      exact hlast (List.mem_append_right _ (List.mem_cons_of_mem _ (heq ▸ hmem)))
    · intro q hq hqp
      rcases List.mem_cons.1 hq with rfl | hq
      · have := f.head_lt q hj
        have := (h.inside hx).2
        exact hc.nxt_same h (.inl hj) (by omega) hqp
      · exact hc.nxt_same h (.inr ⟨j, ((hl q).1 hq).1⟩) ((hl q).1 hq).2 hqp
    · intro q hq hqn
      exact hc.prv_same h ((hl q).1 hq).1 ((hl q).1 hq).2 hqn
  · obtain ⟨l, hnd, hl, hchain⟩ := h.chain j hj
    refine ⟨l, hnd, fun q => ?_, hc.other h hj hjk hl hchain⟩
    rw [hl]
    exact ⟨fun hq => ⟨hq, fun heq => hjk (h.head_eq hx (heq ▸ hq))⟩, And.left⟩

/-- What comes first on a list. -/
lemma first (h : Lists f rd M) (hk : k ∈ f.heads) :
    f.nxt rd k = f.last ∨ M k (f.nxt rd k) := by
  obtain ⟨l, -, hl, hchain⟩ := h.chain k hk
  exact hchain.nxt_eq.symm.imp_right (hl _).1

/-- A block that is on no list is put at the front of one. -/
theorem insert (h : Lists f rd M) (hk : k ∈ f.heads) (hlt : f.last < x)
    (hapart : ∀ {j q}, M j q → q + 4 ≤ x ∨ x + 4 ≤ q)
    (hfirst : rd' (f.slot k) / 4 = x) (hx : rd' (x + 1) / 4 = f.nxt rd k)
    (hxk : rd' (x + 2) / 4 = k) (hn : f.nxt rd k ≠ f.last → rd' (f.nxt rd k + 2) / 4 = x)
    (hsame : ∀ i, i ≠ f.slot k → (f.nxt rd k ≠ f.last → i ≠ f.nxt rd k + 2) →
      i ≠ x + 1 → i ≠ x + 2 → rd' i = rd i) :
    Lists f rd' fun j q => M j q ∨ (j = k ∧ q = x) := by
  obtain ⟨l, hnd, hl, hchain⟩ := h.chain k hk
  have hc : Changed f rd rd' M k k (f.nxt rd k) x :=
    ⟨hk, .inl rfl, h.first hk, hlt, fun hq => .inr (hapart hq), hsame⟩
  have hne : ∀ {j q}, M j q → q ≠ x := fun hq => by have := hapart hq; omega
  have hklt := f.head_lt k hk
  refine ⟨fun j hj => ?_, ?_, ?_⟩
  · rcases eq_or_ne j k with rfl | hjk
    · -- the list of `k` has `x` in front now
      have hxx : f.nxt rd' x = f.nxt rd j := by rw [Format.nxt, f.slot_block x hlt, hx]
      refine ⟨x :: l, List.nodup_cons.2 ⟨fun hmem => hne ((hl x).1 hmem) rfl, hnd⟩, ?_, ?_⟩
      · intro q
        rw [List.mem_cons, hl]
        tauto
      apply hchain.insert hnd hfirst hxx hxk
      · intro hmem
        apply hn
        intro heq
        rw [heq] at hmem
        exact absurd (h.inside ((hl _).1 hmem)).2 (lt_irrefl _)
      · intro q hq
        have hq' := (hl q).1 hq
        have := (h.inside hq').2
        exact hc.nxt_same h (.inr ⟨j, hq'⟩) (hne hq') (by omega)
      · intro q hq hqn
        exact hc.prv_same h ((hl q).1 hq) (hne ((hl q).1 hq)) hqn
    · -- the other lists do not reach a word that has changed
      obtain ⟨l, hnd, hl, hchain⟩ := h.chain j hj
      refine ⟨l, hnd, fun q => ?_, hc.other h hj hjk hl hchain⟩
      rw [hl]
      tauto
  · rintro i j q r (hq | ⟨rfl, rfl⟩) (hr | ⟨rfl, rfl⟩)
    · exact h.apart hq hr
    · exact .inr (hapart hq)
    · exact .inr (hapart hr).symm
    · exact .inl ⟨rfl, rfl⟩
  · rintro i q (hq | ⟨rfl, rfl⟩)
    · exact h.inside hq
    · exact ⟨hk, hlt⟩

/-- A block that is on no list takes the place of a member. -/
theorem replace (h : Lists f rd M) (hx : M k x) (hlt : f.last < y)
    (hapart : ∀ {j q}, M j q → q + 4 ≤ y ∨ y + 4 ≤ q)
    (hp : rd' (f.slot (prv rd x)) / 4 = y) (hy : rd' (y + 1) / 4 = f.nxt rd x)
    (hyp : rd' (y + 2) / 4 = prv rd x)
    (hn : f.nxt rd x ≠ f.last → rd' (f.nxt rd x + 2) / 4 = y)
    (hsame : ∀ i, i ≠ f.slot (prv rd x) → (f.nxt rd x ≠ f.last → i ≠ f.nxt rd x + 2) →
      i ≠ y + 1 → i ≠ y + 2 → rd' i = rd i) :
    Lists f rd' fun j q => (M j q ∧ q ≠ x) ∨ (j = k ∧ q = y) := by
  obtain ⟨hbefore, hbehind⟩ := h.neighbours hx
  have hk := (h.inside hx).1
  have hc : Changed f rd rd' M k (prv rd x) (f.nxt rd x) y :=
    ⟨hk, hbefore.imp_right And.left, hbehind.imp_right And.left, hlt,
      fun hq => .inr (hapart hq), hsame⟩
  have hne : ∀ {j q}, M j q → q ≠ y := fun hq => by have := hapart hq; omega
  refine ⟨fun j hj => ?_, ?_, ?_⟩
  · rcases eq_or_ne j k with rfl | hjk
    · -- on the list of `x` the neighbours of `x` now point to `y`
      obtain ⟨l₁, l₂, hnd, hlast, hl, hchain⟩ := h.split hx
      have hnd' := (List.nodup_cons.1 (List.nodup_middle.1 (List.nodup_cons.1 hnd).2)).2
      have hyl : y ∉ l₁ ++ l₂ := fun hmem => hne ((hl y).1 hmem).1 rfl
      have hyx : f.nxt rd' y = f.nxt rd x := by rw [Format.nxt, f.slot_block y hlt, hy]
      refine ⟨l₁ ++ y :: l₂, List.nodup_middle.2 (List.nodup_cons.2 ⟨hyl, hnd'⟩), ?_, ?_⟩
      · intro q
        rw [List.mem_append, List.mem_cons, or_left_comm, ← List.mem_append, hl]
        tauto
      apply hchain.replace hnd hlast hp hyx hyp
      · intro hmem
        apply hn
        intro heq
        exact hlast (List.mem_append_right _ (List.mem_cons_of_mem _ (heq ▸ hmem)))
      · intro q hq hqp
        rcases List.mem_cons.1 hq with rfl | hq
        · have := f.head_lt q hj
          exact hc.nxt_same h (.inl hj) (by omega) hqp
        · exact hc.nxt_same h (.inr ⟨j, ((hl q).1 hq).1⟩) (hne ((hl q).1 hq).1) hqp
      · intro q hq hqn
        exact hc.prv_same h ((hl q).1 hq).1 (hne ((hl q).1 hq).1) hqn
    · -- `x` is on one list only
      obtain ⟨l, hnd, hl, hchain⟩ := h.chain j hj
      refine ⟨l, hnd, fun q => ?_, hc.other h hj hjk hl hchain⟩
      rw [hl]
      refine ⟨fun hq => .inl ⟨hq, fun heq => hjk (h.head_eq hx (heq ▸ hq))⟩, ?_⟩
      rintro (hq | ⟨rfl, -⟩)
      · exact hq.1
      · exact absurd rfl hjk
  · rintro i j q r (⟨hq, -⟩ | ⟨rfl, rfl⟩) (⟨hr, -⟩ | ⟨rfl, rfl⟩)
    · exact h.apart hq hr
    · exact .inr (hapart hq)
    · exact .inr (hapart hr).symm
    · exact .inl ⟨rfl, rfl⟩
  · rintro i q (⟨hq, -⟩ | ⟨rfl, rfl⟩)
    · exact h.inside hq
    · exact ⟨hk, hlt⟩

end Lists

/-! ## The code that changes links -/

lemma fixAddress_eq {w : ℕ} (h : w < 2 ^ 32) : fixAddress w = w / 4 := by
  have hor : 1 <<< 35 ||| w = 2 ^ 35 + w := by
    have := Nat.two_pow_add_eq_or_of_lt (i := 35) (lt_trans h (by norm_num)) 1
    rw [Nat.mul_one] at this
    simpa using this.symm
  rw [fixAddress, hor, heapLo, Nat.add_sub_cancel_left]
  rfl

lemma address_mod {p : ℕ} (h : p < 2 ^ 30) : address p % 2 ^ 32 / 4 = p := by
  unfold address heapLo WSIZE
  omega

/-- `setNext` stores next links where the format says. -/
def SetsNext (f : Format) (setNext : ℕ → ℕ → HeapM Unit) : Prop :=
  ∀ p v Q s, wp (setNext p v) Q s ↔ 4 * f.slot p + 4 ≤ s.brk ∧ Q () (s.setWord (f.slot p) v)

lemma prv_lt {s : Segment} {q : ℕ} : prv s.word q < 2 ^ 30 := by
  have := s.word_lt (q + 2)
  unfold prv
  omega

lemma nxt_lt {f : Format} {s : Segment} {q : ℕ} : f.nxt s.word q < 2 ^ 30 := by
  have := s.word_lt (f.slot q)
  unfold Format.nxt
  omega

section Code
variable {f : Format} {setNext : ℕ → ℕ → HeapM Unit} {s : Segment} {M : ℕ → ℕ → Prop} {k x : ℕ}

/-- The words that are written when `x` leaves its list are links of others. -/
lemma Lists.around {rd : ℕ → ℕ} (h : Lists f rd M) (hx : M k x) {brk : ℕ}
    (hin : ∀ {j q}, M j q → 4 * (q + 4) ≤ brk) :
    4 * f.slot (prv rd x) + 4 ≤ brk ∧ 4 * (f.nxt rd x + 2) + 4 ≤ brk ∧
      f.slot (prv rd x) ≠ f.nxt rd x ∧ f.slot (prv rd x) ≠ x + 1 ∧ f.slot (prv rd x) ≠ x + 2 ∧
      (f.nxt rd x ≠ f.last → f.slot (prv rd x) ≠ f.nxt rd x + 2 ∧ f.nxt rd x + 2 ≠ x + 1 ∧
        f.nxt rd x + 2 ≠ x + 2) := by
  obtain ⟨hk, hlt⟩ := h.inside hx
  have hxin := hin hx
  have hsk := f.slot_lt k hk
  obtain ⟨hbefore, hbehind⟩ := h.neighbours hx
  generalize prv rd x = p at *
  generalize f.nxt rd x = n at *
  have hn : n = f.last ∨ (f.last < n ∧ 4 * (n + 4) ≤ brk ∧ (n + 4 ≤ x ∨ x + 4 ≤ n)) := by
    refine hbehind.imp_right fun ⟨hn, hne⟩ => ⟨(h.inside hn).2, hin hn, ?_⟩
    exact (h.apart hn hx).resolve_left fun heq => hne heq.2
  -- the predecessor is the head, below all blocks, or a block apart from `x` and from `n`
  rcases hbefore with rfl | ⟨hp, hpx⟩
  · omega
  · have hpl := (h.inside hp).2
    have hpin := hin hp
    have hpapart := (h.apart hp hx).resolve_left fun heq => hpx heq.2
    rw [h.slot_eq hp]
    rcases hn with rfl | ⟨hnl, hnin, hnx⟩
    · omega
    · have hnp : p = n ∨ p + 4 ≤ n ∨ n + 4 ≤ p := by
        rcases hbehind with hlast | ⟨hn, -⟩
        · omega
        · exact (h.apart hp hn).imp_left And.right
      omega

/-- What the code that changes links may count on. -/
structure Tagless (f : Format) (s : Segment) (M : ℕ → ℕ → Prop) (x : ℕ) : Prop where
  lists : Lists f s.word M
  le : s.brk ≤ 2 ^ 32
  inside : ∀ {j q}, M j q → 4 * (q + 4) ≤ s.brk
  last : s.word f.last % 2 = 1
  free : ∀ {j q}, M j q → q ≠ x → s.word q % 2 = 0

/-- The header of the next block tells whether it is the end. -/
lemma Tagless.free_nxt (h : Tagless f s M x) (hx : M k x) :
    s.word (f.nxt s.word x) % 2 = 0 ↔ f.nxt s.word x ≠ f.last := by
  rcases (h.lists.neighbours hx).2 with hlast | ⟨hn, hne⟩
  · have := h.last
    rw [hlast]
    simp [this]
  · have := (h.lists.inside hn).2
    simp [h.free hn hne, this.ne']

/-- When the neighbours of `x` have been linked to each other, `x` has left its list. -/
lemma Tagless.unlinked (h : Tagless f s M x) (hx : M k x) (s' : Segment)
    (hp : s'.word (f.slot (prv s.word x)) / 4 = f.nxt s.word x)
    (hn : f.nxt s.word x ≠ f.last → s'.word (f.nxt s.word x + 2) / 4 = prv s.word x)
    (hsame : s.SameBut (fun i => i = f.slot (prv s.word x) ∨
      (f.nxt s.word x ≠ f.last ∧ i = f.nxt s.word x + 2)) s') :
    Lists f s'.word (fun j q => M j q ∧ q ≠ x) ∧
      s.SameBut (Link f fun j q => M j q ∧ q ≠ x) s' := by
  constructor
  · refine h.lists.remove hx hp hn fun i hip hin _ _ => hsame.word ?_
    rintro (rfl | ⟨hne, rfl⟩)
    · exact hip rfl
    · exact hin hne rfl
  · refine hsame.mono ?_
    obtain ⟨hbefore, hbehind⟩ := h.lists.neighbours hx
    rintro i (rfl | ⟨hne, rfl⟩)
    · rcases hbefore with hk | ⟨hp, hpx⟩
      · exact .inl ⟨k, (h.lists.inside hx).1, by rw [hk]⟩
      · exact .inr ⟨k, _, ⟨hp, hpx⟩, .inl (h.lists.slot_eq hp)⟩
    · exact .inr ⟨k, _, hbehind.resolve_left hne, .inr rfl⟩

/-- When `y` has the links of `x` and its neighbours lead to `y`, it has taken the place of
`x`. -/
lemma Tagless.moved (h : Tagless f s M x) (hx : M k x) {y : ℕ} (s' : Segment)
    (hlt : f.last < y) (hapart : ∀ {j q}, M j q → q + 4 ≤ y ∨ y + 4 ≤ q)
    (hp : s'.word (f.slot (prv s.word x)) / 4 = y) (hy : s'.word (y + 1) / 4 = f.nxt s.word x)
    (hyp : s'.word (y + 2) / 4 = prv s.word x)
    (hn : f.nxt s.word x ≠ f.last → s'.word (f.nxt s.word x + 2) / 4 = y)
    (hsame : s.SameBut (fun i => i = y + 1 ∨ i = y + 2 ∨ i = f.slot (prv s.word x) ∨
      (f.nxt s.word x ≠ f.last ∧ i = f.nxt s.word x + 2)) s') :
    Lists f s'.word (fun j q => (M j q ∧ q ≠ x) ∨ (j = k ∧ q = y)) ∧
      s.SameBut (Link f fun j q => (M j q ∧ q ≠ x) ∨ (j = k ∧ q = y)) s' := by
  constructor
  · refine h.lists.replace hx hlt hapart hp hy hyp hn fun i hip hin h1 h2 => hsame.word ?_
    rintro (rfl | rfl | rfl | ⟨hne, rfl⟩)
    · exact h1 rfl
    · exact h2 rfl
    · exact hip rfl
    · exact hin hne rfl
  · refine hsame.mono ?_
    obtain ⟨hbefore, hbehind⟩ := h.lists.neighbours hx
    rintro i (rfl | rfl | rfl | ⟨hne, rfl⟩)
    · exact .inr ⟨k, y, .inr ⟨rfl, rfl⟩, .inl rfl⟩
    · exact .inr ⟨k, y, .inr ⟨rfl, rfl⟩, .inr rfl⟩
    · rcases hbefore with hk | hp
      · exact .inl ⟨k, (h.lists.inside hx).1, by rw [hk]⟩
      · exact .inr ⟨k, _, .inl hp, .inl (h.lists.slot_eq hp.1)⟩
    · exact .inr ⟨k, _, .inl (hbehind.resolve_left hne), .inr rfl⟩

lemma Tagless.fix_prv : fixAddress (s.word (x + 2)) = prv s.word x := fixAddress_eq (s.word_lt _)

lemma Tagless.fix_nxt (h : Tagless f s M x) (hx : M k x) :
    fixAddress (s.word (x + 1)) = f.nxt s.word x := by
  rw [fixAddress_eq (s.word_lt _), Format.nxt, h.lists.slot_eq hx]

theorem removeBlock_links (hset : SetsNext f setNext) (h : Tagless f s M x) (hx : M k x) :
    wp (removeBlockWith setNext x) (fun _ s' =>
      Lists f s'.word (fun j q => M j q ∧ q ≠ x) ∧
        s.SameBut (Link f fun j q => M j q ∧ q ≠ x) s') s := by
  have hfree := h.free_nxt hx
  obtain ⟨hin, hin', hpn, hp1, hp2, hne⟩ := h.lists.around hx h.inside
  have hxin := h.inside hx
  have hun := h.unlinked hx
  have hmod : ∀ i, s.word i % 4294967296 = s.word i := fun i => Nat.mod_eq_of_lt (s.word_lt i)
  have hw1 : s.word (x + 1) / 4 = f.nxt s.word x := by rw [Format.nxt, h.lists.slot_eq hx]
  have hw2 : s.word (x + 2) / 4 = prv s.word x := rfl
  have hfirst : s.SameBut (fun i => i = f.slot (prv s.word x) ∨
      (f.nxt s.word x ≠ f.last ∧ i = f.nxt s.word x + 2))
      (s.setWord (f.slot (prv s.word x)) (s.word (x + 1))) :=
    (Segment.SameBut.refl _ s).setWord _ (.inl rfl)
  simp only [removeBlockWith, wp_bind, wp_load, hset _, Tagless.fix_prv, h.fix_nxt hx,
    wp_blockFree, Segment.brk_setWord, Segment.word_setWord, hpn.symm, if_false, wp_ite, hfree]
  refine ⟨by omega, by omega, by omega, by omega, by omega, ?_⟩
  split
  · -- the successor is a block, and its previous link is written too
    next hlast =>
    obtain ⟨hpn2, -, hn2⟩ := hne hlast
    simp only [wp_store, Segment.brk_setWord]
    refine ⟨by omega, by omega, hun _ ?_ (fun _ => ?_) (hfirst.setWord _ (.inr ⟨hlast, rfl⟩))⟩
    · simp [Segment.word_setWord, hpn2, hmod, hw1]
    · simp [Segment.word_setWord, hp2.symm, hmod, hw2]
  · next hlast =>
    refine (wp_pure _ _ _).2 (hun _ ?_ (fun h => absurd h hlast) hfirst)
    simp [Segment.word_setWord, hmod, hw1]

theorem dropLinks_links (hset : SetsNext f setNext) (h : Tagless f s M x) (hx : M k x) :
    wp (dropLinks setNext x) (fun _ s' =>
      Lists f s'.word (fun j q => M j q ∧ q ≠ x) ∧
        s.SameBut (Link f fun j q => M j q ∧ q ≠ x) s') s := by
  have hfree := h.free_nxt hx
  obtain ⟨hin, hin', -, -, -, hne⟩ := h.lists.around hx h.inside
  have hxin := h.inside hx
  have hun := h.unlinked hx
  have hap : address (prv s.word x) % 4294967296 / 4 = prv s.word x := address_mod prv_lt
  have han : address (f.nxt s.word x) % 4294967296 / 4 = f.nxt s.word x := address_mod nxt_lt
  have hrefl := Segment.SameBut.refl (fun i => i = f.slot (prv s.word x) ∨
      (f.nxt s.word x ≠ f.last ∧ i = f.nxt s.word x + 2)) s
  simp only [dropLinks, wp_bind, wp_load, Tagless.fix_prv, h.fix_nxt hx, wp_blockFree, wp_ite,
    hfree]
  refine ⟨by omega, by omega, by omega, ?_⟩
  split
  · next hlast =>
    obtain ⟨hpn2, -, -⟩ := hne hlast
    simp only [wp_store, hset _, Segment.brk_setWord]
    refine ⟨by omega, by omega, hun _ ?_ (fun _ => ?_)
      ((hrefl.setWord _ (.inr ⟨hlast, rfl⟩)).setWord _ (.inl rfl))⟩
    · simp [Segment.word_setWord, han]
    · simp [Segment.word_setWord, hpn2.symm, hap]
  · next hlast =>
    simp only [hset _]
    refine ⟨by omega, hun _ ?_ (fun h => absurd h hlast) (hrefl.setWord _ (.inl rfl))⟩
    simp [Segment.word_setWord, han]

/-- The block at `y`, of which `temp` is the payload, takes the place of `x` on its list. -/
theorem moveLinks_links {y : ℕ} (hset : SetsNext f setNext) (h : Tagless f s M x) (hx : M k x)
    (hlt : f.last < y) (hyin : 4 * (y + 4) ≤ s.brk)
    (hapart : ∀ {j q}, M j q → q + 4 ≤ y ∨ y + 4 ≤ q) :
    wp (moveLinks setNext x (y + 1)) (fun _ s' =>
      Lists f s'.word (fun j q => (M j q ∧ q ≠ x) ∨ (j = k ∧ q = y)) ∧
        s.SameBut (Link f fun j q => (M j q ∧ q ≠ x) ∨ (j = k ∧ q = y)) s') s := by
  have hfree := h.free_nxt hx
  obtain ⟨hin, hin', hpn, -, -, hne⟩ := h.lists.around hx h.inside
  have hpn := hpn.symm
  have hxin := h.inside hx
  have hxy := hapart hx
  have hslot := h.lists.slot_eq hx
  have hay : address y % 4294967296 / 4 = y := address_mod (by have := h.le; omega)
  have hmod : ∀ i, s.word i % 4294967296 = s.word i := fun i => Nat.mod_eq_of_lt (s.word_lt i)
  have hw1 : s.word (x + 1) / 4 = f.nxt s.word x := by rw [Format.nxt, hslot]
  have hw2 : s.word (x + 2) / 4 = prv s.word x := rfl
  -- the four words that are written are different ones, and none is read after it is written
  have hne1 : x + 1 ≠ y + 1 ∧ x + 2 ≠ y + 1 := by omega
  have hsp : f.slot (prv s.word x) ≠ y + 1 ∧ f.slot (prv s.word x) ≠ y + 2 := by
    rcases (h.lists.neighbours hx).1 with hk | ⟨hp, -⟩
    · have := f.slot_lt k (h.lists.inside hx).1
      rw [hk]
      omega
    · have := hapart hp
      rw [h.lists.slot_eq hp]
      omega
  have hny : f.nxt s.word x ≠ y + 1 ∧ f.nxt s.word x ≠ y + 2 ∧ (f.nxt s.word x ≠ f.last →
      f.nxt s.word x + 2 ≠ y + 1 ∧ f.nxt s.word x + 2 ≠ y + 2) := by
    rcases (h.lists.neighbours hx).2 with hlast | ⟨hn, -⟩
    · omega
    · have := hapart hn
      omega
  have hrefl := Segment.SameBut.refl (fun i => i = y + 1 ∨ i = y + 2 ∨
    i = f.slot (prv s.word x) ∨ (f.nxt s.word x ≠ f.last ∧ i = f.nxt s.word x + 2)) s
  have hsame := ((hrefl.setWord (s.word (x + 1)) (.inl rfl)).setWord (s.word (x + 2))
    (.inr (.inl rfl))).setWord (address y) (.inr (.inr (.inl rfl)))
  have h12 : y + 1 ≠ y + 2 := by omega
  have hmoved := fun s' => h.moved hx s' hlt hapart
  simp only [moveLinks, Nat.add_sub_cancel, wp_bind, wp_load, wp_store, hset _,
    Segment.brk_setWord, Segment.word_setWord, hne1, h12, if_true, if_false, Nat.add_assoc,
    Nat.reduceAdd, Nat.reducePow, hmod, Tagless.fix_prv, h.fix_nxt hx, wp_blockFree, wp_ite,
    hny, hpn, hfree]
  refine ⟨by omega, by omega, by omega, by omega, by omega, by omega, by omega, by omega, ?_⟩
  split
  · next hlast =>
    obtain ⟨hpn2, -, -⟩ := hne hlast
    obtain ⟨hny1, hny2⟩ : y ≠ f.nxt s.word x + 1 ∧ y ≠ f.nxt s.word x := by
      have := hny.2.2 hlast
      omega
    refine ⟨hin', hmoved _ ?_ ?_ ?_ (fun _ => ?_)
      (hsame.setWord _ (.inr (.inr (.inr ⟨hlast, rfl⟩))))⟩
    · simp [Segment.word_setWord, hpn2, hay]
    · simp [Segment.word_setWord, hny1, hsp.1.symm, hmod, hw1]
    · simp [Segment.word_setWord, hny2, hsp.2.symm, hmod, hw2]
    · simp [Segment.word_setWord, hay]
  · next hlast =>
    refine (wp_pure _ _ _).2 (hmoved _ ?_ ?_ ?_ (fun h => absurd h hlast) hsame)
    · simp [Segment.word_setWord, hay]
    · simp [Segment.word_setWord, hsp.1.symm, hmod, hw1]
    · simp [Segment.word_setWord, hsp.2.symm, hmod, hw2]

/-- When `x` has been linked in after the head `k`, it is on the list of `k`. -/
lemma Tagless.linked (h : Tagless f s M x) (hk : k ∈ f.heads) (s' : Segment) (hlt : f.last < x)
    (hapart : ∀ {j q}, M j q → q + 4 ≤ x ∨ x + 4 ≤ q) (hfirst : s'.word (f.slot k) / 4 = x)
    (hx : s'.word (x + 1) / 4 = f.nxt s.word k) (hxk : s'.word (x + 2) / 4 = k)
    (hn : f.nxt s.word k ≠ f.last → s'.word (f.nxt s.word k + 2) / 4 = x)
    (hsame : s.SameBut (fun i => i = x + 1 ∨ i = x + 2 ∨ i = f.slot k ∨
      (f.nxt s.word k ≠ f.last ∧ i = f.nxt s.word k + 2)) s') :
    Lists f s'.word (fun j q => M j q ∨ (j = k ∧ q = x)) ∧
      s.SameBut (Link f fun j q => M j q ∨ (j = k ∧ q = x)) s' := by
  constructor
  · refine h.lists.insert hk hlt hapart hfirst hx hxk hn fun i hik hin h1 h2 => hsame.word ?_
    rintro (rfl | rfl | rfl | ⟨hne, rfl⟩)
    · exact h1 rfl
    · exact h2 rfl
    · exact hik rfl
    · exact hin hne rfl
  · refine hsame.mono ?_
    rintro i (rfl | rfl | rfl | ⟨hne, rfl⟩)
    · exact .inr ⟨k, x, .inr ⟨rfl, rfl⟩, .inl rfl⟩
    · exact .inr ⟨k, x, .inr ⟨rfl, rfl⟩, .inr rfl⟩
    · exact .inl ⟨k, hk, rfl⟩
    · exact .inr ⟨k, _, .inl ((h.lists.first hk).resolve_left hne), .inr rfl⟩

theorem linkFront_links (hset : SetsNext f setNext) (h : Tagless f s M x) (hk : k ∈ f.heads)
    (hlt : f.last < x) (hxin : 4 * (x + 4) ≤ s.brk)
    (hapart : ∀ {j q}, M j q → q + 4 ≤ x ∨ x + 4 ≤ q) {v : ℕ}
    (hv : v % 2 ^ 32 / 4 = f.nxt s.word k) :
    wp (linkFront setNext k v x) (fun r s' => r = x ∧
      Lists f s'.word (fun j q => M j q ∨ (j = k ∧ q = x)) ∧
        s.SameBut (Link f fun j q => M j q ∨ (j = k ∧ q = x)) s') s := by
  have hlinked := fun s' => h.linked hk s' hlt hapart
  have hsk := f.slot_lt k hk
  have hkl := f.head_lt k hk
  have hll := f.last_lt
  have hle := h.le
  have hax : address x % 4294967296 / 4 = x := address_mod (by omega)
  have hak : address k % 4294967296 / 4 = k := address_mod (by omega)
  have hmod : v % 4294967296 < 4294967296 := Nat.mod_lt _ (by norm_num)
  have hv' : v % 4294967296 / 4 = f.nxt s.word k := hv
  have hfix : fixAddress (v % 4294967296) = f.nxt s.word k := by
    rw [fixAddress_eq hmod, hv']
  have hrefl := Segment.SameBut.refl (fun i => i = x + 1 ∨ i = x + 2 ∨ i = f.slot k ∨
      (f.nxt s.word k ≠ f.last ∧ i = f.nxt s.word k + 2)) s
  have hsame := ((hrefl.setWord v (.inl rfl)).setWord (address k) (.inr (.inl rfl))).setWord
    (address x) (.inr (.inr (.inl rfl)))
  -- the code reads the header of the old first block to see whether there is one
  have hfree : s.word (f.nxt s.word k) % 2 = 0 ↔ f.nxt s.word k ≠ f.last := by
    rcases h.lists.first hk with hlast | hn
    · have := h.last
      rw [hlast]
      simp [this]
    · have := hapart hn
      have := (h.lists.inside hn).2
      simp [h.free hn (by omega), this.ne']
  have hnin : 4 * (f.nxt s.word k + 2) + 4 ≤ s.brk ∧ f.nxt s.word k ≠ x + 1 ∧
      f.nxt s.word k ≠ x + 2 ∧ f.nxt s.word k ≠ f.slot k ∧ (f.nxt s.word k ≠ f.last →
        x ≠ f.nxt s.word k + 1 ∧ x ≠ f.nxt s.word k ∧ f.slot k ≠ f.nxt s.word k + 2) := by
    rcases h.lists.first hk with hlast | hn
    · omega
    · have := hapart hn
      have := h.inside hn
      have := (h.lists.inside hn).2
      omega
  obtain ⟨hnin, hn1, hn2, hns, hne⟩ := hnin
  have hadd : f.nxt s.word k ≠ f.last →
      fixAddress (uAdd (v % 4294967296) 8) = f.nxt s.word k + 2 := fun hlast => by
    rw [uAdd_eq (by omega), fixAddress_eq (by omega)]
    omega
  have h12 : x + 1 ≠ x + 2 ∧ x + 1 ≠ f.slot k ∧ x + 2 ≠ f.slot k := by omega
  simp only [linkFront, wp_bind, wp_load, wp_store, hset _, Segment.brk_setWord,
    Segment.word_setWord, h12, if_true, if_false, Nat.reducePow, hfix, wp_blockFree, wp_ite, hn1,
    hn2, hns, hfree]
  refine ⟨by omega, by omega, by omega, by omega, by omega, ?_⟩
  split
  · next hlast =>
    obtain ⟨hn1', hn2', hsn⟩ := hne hlast
    rw [hadd hlast]
    refine ⟨by omega, hnin, (wp_pure _ _ _).2 ⟨rfl, hlinked _ ?_ ?_ ?_ (fun _ => ?_)
      (hsame.setWord _ (.inr (.inr (.inr ⟨hlast, rfl⟩))))⟩⟩
    · simp [Segment.word_setWord, hsn, hax]
    · simp [Segment.word_setWord, hn1', h12, hv']
    · simp [Segment.word_setWord, hn2', h12, hak]
    · simp [Segment.word_setWord, hax]
  · next hlast =>
    refine (wp_pure _ _ _).2 ⟨rfl, hlinked _ ?_ ?_ ?_ (fun h => absurd h hlast) hsame⟩
    · simp [Segment.word_setWord, hax]
    · simp [Segment.word_setWord, h12, hv']
    · simp [Segment.word_setWord, h12, hak]

end Code

end Malloclab
end SystemsLabs
