import Mathlib

/-!
# Circular doubly linked lists

The links of nodes that each know the next and the previous one, with the
pointer assignments that put a node in and take one out. A head node and the
nodes linked behind it form a *ring* (`IsRing`), which is what the nodes
represent.

* `isRing_init`: a node linked to itself heads an empty ring;
* `isRing_addTail`: a node put before the head becomes the last of the ring;
* `isRing_del`: a node taken out leaves the ring of the others.
-/

namespace Cube.Lib

/-- The links of the nodes at the addresses `A`. -/
structure Links (A : Type*) where
  next : A → A
  prev : A → A

namespace Links

variable {A : Type*}

/-! ## Segments and rings -/

section Ring

variable {h h' : Links A}

/-- The nodes `l` are linked one to the next, the first one to `a` before it and
    the last one to `b` after it. -/
def Seg (h : Links A) : A → List A → A → Prop
  | a, [], b => h.next a = b ∧ h.prev b = a
  | a, x :: l, b => (h.next a = x ∧ h.prev x = a) ∧ Seg h x l b

variable {a x b u head : A} {l : List A}

theorem seg_append {r : List A} :
    Seg h a (l ++ x :: r) b ↔ Seg h a l x ∧ Seg h x r b := by
  induction l generalizing a with
  | nil => exact Iff.rfl
  | cons y l ih =>
    simp only [List.cons_append, Seg, ih]
    exact (and_assoc).symm

/-- A segment is kept by every change of other links than its own. -/
theorem Seg.congr (hl : Seg h a l b) (hnext : ∀ u ∈ a :: l, h'.next u = h.next u)
    (hprev : ∀ u ∈ l ++ [b], h'.prev u = h.prev u) : Seg h' a l b := by
  induction l generalizing a with
  | nil =>
    refine ⟨?_, ?_⟩
    · rw [hnext a (by simp), hl.1]
    · rw [hprev b (by simp), hl.2]
  | cons x l ih =>
    obtain ⟨⟨hax, hxa⟩, hl⟩ := hl
    refine ⟨⟨?_, ?_⟩, ih hl (fun u hu => ?_) (fun u hu => ?_)⟩
    · rw [hnext a (by simp), hax]
    · rw [hprev x (by simp), hxa]
    · exact hnext u (List.mem_cons_of_mem _ hu)
    · exact hprev u (by rw [List.cons_append]; exact List.mem_cons_of_mem _ hu)

theorem Seg.next_mem (hl : Seg h a l b) : h.next a ∈ l ++ [b] := by
  cases l with
  | nil => simp [hl.1]
  | cons x l => simp [hl.1.1]

theorem Seg.prev_mem (hl : Seg h a l b) : h.prev b ∈ a :: l := by
  induction l generalizing a with
  | nil => simp [hl.2]
  | cons x l ih => exact List.mem_cons_of_mem _ (ih hl.2)

/-- The node after the `n`th one of a segment is the next one of it. -/
theorem Seg.next_getElem? (hl : Seg h a l b) {n : Nat}
    (hu : (a :: l)[n]? = some u) : (l ++ [b])[n]? = some (h.next u) := by
  induction l generalizing a n with
  | nil =>
    cases n with
    | zero =>
      obtain rfl : a = u := by simpa using hu
      simp [hl.1]
    | succ n => simp at hu
  | cons x l ih =>
    cases n with
    | zero =>
      obtain rfl : a = u := by simpa using hu
      simp [hl.1.1]
    | succ n => exact ih hl.2 hu

/-- A loop that passes every node of a segment goes on with the node behind it. -/
theorem Seg.loop {β : Type*} {f : Nat → A → β} (hl : Seg h a l b)
    (hf : ∀ n, ∀ u ∈ l, f (n + 1) u = f n (h.next u)) (n : Nat) :
    f (n + l.length) (h.next a) = f n b := by
  induction l generalizing a with
  | nil => rw [hl.1, List.length_nil, Nat.add_zero]
  | cons x l ih =>
    obtain ⟨⟨hax, _⟩, hl⟩ := hl
    rw [List.length_cons, ← Nat.add_assoc, hax, hf _ x List.mem_cons_self]
    exact ih hl fun n u hu => hf n u (List.mem_cons_of_mem _ hu)

/-- The nodes `l` are linked in a circle behind `head`. -/
structure IsRing (h : Links A) (head : A) (l : List A) : Prop where
  nodup : (head :: l).Nodup
  seg : Seg h head l head

/-- The ring ends at the node before its head. -/
theorem IsRing.prev_head (hl : IsRing h head (l ++ [x])) :
    h.prev head = x := (seg_append.1 hl.seg).2.2

/-- The ring starts at the node after its head. -/
theorem IsRing.next_head (hl : IsRing h head (x :: l)) :
    h.next head = x := hl.seg.1.1

/-- A ring is kept by every change of the links of other nodes. -/
theorem IsRing.congr (hl : IsRing h head l) (hnext : ∀ u ∈ head :: l, h'.next u = h.next u)
    (hprev : ∀ u ∈ head :: l, h'.prev u = h.prev u) : IsRing h' head l := by
  refine ⟨hl.nodup, hl.seg.congr hnext fun u hu => hprev u ?_⟩
  simp only [List.mem_append, List.mem_singleton] at hu
  rw [List.mem_cons]
  exact hu.symm

end Ring

/-! ## Putting nodes in and taking them out -/

variable [DecidableEq A] {h : Links A}

section Assign

variable (h)

/-- The assignment `u->next = v`. -/
def setNext (u v : A) : Links A := { h with next := Function.update h.next u v }

/-- The assignment `u->prev = v`. -/
def setPrev (u v : A) : Links A := { h with prev := Function.update h.prev u v }

@[simp] theorem setNext_next (u v w : A) :
    (h.setNext u v).next w = if w = u then v else h.next w := Function.update_apply ..

@[simp] theorem setNext_prev (u v : A) : (h.setNext u v).prev = h.prev := rfl

@[simp] theorem setPrev_prev (u v w : A) :
    (h.setPrev u v).prev w = if w = u then v else h.prev w := Function.update_apply ..

@[simp] theorem setPrev_next (u v : A) : (h.setPrev u v).next = h.next := rfl

/-- The node `x` linked to itself. -/
def init (x : A) : Links A := (h.setNext x x).setPrev x x

/-- The node `x` put between `p` and `n`. -/
def insert (x p n : A) : Links A :=
  (((h.setPrev n x).setNext x n).setPrev x p).setNext p x

/-- The node `x` put before `head`. -/
def addTail (x head : A) : Links A := h.insert x (h.prev head) head

/-- The node `x` taken out, and linked to itself. -/
def del (x : A) : Links A :=
  if h.next x = x then h
  else
    let h₁ := h.setPrev (h.next x) (h.prev x)
    let h₂ := h₁.setNext (h₁.prev x) (h₁.next x)
    (h₂.setPrev x x).setNext x x

end Assign

/-- A node linked to itself heads an empty ring. -/
theorem isRing_init : IsRing (h.init x) x [] := by
  refine ⟨List.nodup_singleton x, ?_, ?_⟩ <;> simp [init]

/-- The links of a node that is not put in are changed only next to it. -/
theorem insert_next {p n : A} (hu : u ≠ x) (hp : u ≠ p) :
    (h.insert x p n).next u = h.next u := by simp [insert, hu, hp]

theorem insert_prev {p n : A} (hu : u ≠ x) (hn : u ≠ n) :
    (h.insert x p n).prev u = h.prev u := by simp [insert, hu, hn]

/-- Putting `x` at the end of a segment, where `p` is the last node. -/
theorem seg_insert_last {p : A} (hl : Seg h a (l ++ [p]) b)
    (hnext : (a :: (l ++ [p])).Nodup) (hprev : (l ++ [p, b]).Nodup)
    (hx : x ∉ a :: (l ++ [p, b])) : Seg (h.insert x p b) a (l ++ [p, x]) b := by
  obtain ⟨hlp, hp⟩ := seg_append.1 hl
  refine seg_append.2 ⟨hlp.congr (fun u hu => ?_) (fun u hu => ?_), ?_⟩
  · refine insert_next ?_ ?_ <;> grind
  · refine insert_prev ?_ ?_ <;> grind
  · have hxp : p ≠ x := by grind
    have hxb : b ≠ x := by grind
    simp [Seg, insert, hxp.symm, hxb]

/-- A node put before the head becomes the last of the ring. -/
theorem isRing_addTail (hl : IsRing h head l) (hx : x ∉ head :: l) :
    IsRing (h.addTail x head) head (l ++ [x]) := by
  refine ⟨by have := hl.nodup; grind, ?_⟩
  rcases List.eq_nil_or_concat l with rfl | ⟨l, p, rfl⟩
  · have hxh : head ≠ x := by grind
    have hseg := hl.seg
    simp only [Seg] at hseg
    simp [Seg, addTail, insert, hseg.2, hxh, hxh.symm]
  · rw [List.concat_eq_append] at hl hx ⊢
    have hnd := hl.nodup
    rw [addTail, hl.prev_head, List.append_assoc]
    exact seg_insert_last hl.seg hnd (by grind) (by grind)

/-- Taking out a node changes only the links of its neighbours to it. -/
theorem del_next (hx : h.next x ≠ x) (hu : u ≠ x) :
    (h.del x).next u = if u = h.prev x then h.next x else h.next u := by
  simp [del, hx, hu, Ne.symm hx]

theorem del_prev (hx : h.next x ≠ x) (hu : u ≠ x) :
    (h.del x).prev u = if u = h.next x then h.prev x else h.prev u := by
  simp [del, hx, hu]

/-- Taking out `x` joins the segments before and after it. -/
theorem seg_del {r : List A} (hl : Seg h a l x) (hr : Seg h x r b)
    (hnext : (a :: (l ++ x :: r)).Nodup) (hprev : (l ++ x :: r ++ [b]).Nodup) (hax : a ≠ x) :
    Seg (h.del x) a (l ++ r) b := by
  have hxn : h.next x ≠ x := by have := hr.next_mem; grind
  have hdel (u : A) (hu : u ≠ x) := And.intro (del_next hxn hu) (del_prev hxn hu)
  induction l generalizing a with
  | nil =>
    obtain ⟨hax', hxa⟩ := hl
    cases r with
    | nil =>
      obtain ⟨hxb, hbx⟩ := hr
      have hb : b ≠ x := by grind
      exact ⟨by rw [(hdel a hax).1, if_pos hxa.symm, hxb],
        by rw [(hdel b hb).2, if_pos hxb.symm, hxa]⟩
    | cons y r =>
      obtain ⟨⟨hxy, hyx⟩, hr⟩ := hr
      have hy : y ≠ x := by grind
      refine ⟨⟨?_, ?_⟩, hr.congr (fun u hu => ?_) (fun u hu => ?_)⟩
      · rw [(hdel a hax).1, if_pos hxa.symm, hxy]
      · rw [(hdel y hy).2, if_pos hxy.symm, hxa]
      · rw [(hdel u (by grind)).1, if_neg (by grind)]
      · rw [(hdel u (by grind)).2, if_neg (by grind)]
  | cons y l ih =>
    obtain ⟨⟨hay, hya⟩, hl⟩ := hl
    have hprev_x := hl.prev_mem
    have hnext_x := hr.next_mem
    have hy : y ≠ x := by grind
    refine ⟨⟨?_, ?_⟩, ih hl (by grind) (by grind) hy⟩
    · rw [(hdel a hax).1, if_neg (by grind), hay]
    · rw [(hdel y hy).2, if_neg (by grind), hya]

/-- A node taken out of a ring leaves the ring of the others. -/
theorem isRing_del {r : List A} (hl : IsRing h head (l ++ x :: r)) :
    IsRing (h.del x) head (l ++ r) := by
  obtain ⟨hnd, hseg⟩ := hl
  obtain ⟨hlx, hxr⟩ := seg_append.1 hseg
  refine ⟨by grind, seg_del hlx hxr hnd (by grind) (by grind)⟩

end Links

end Cube.Lib
