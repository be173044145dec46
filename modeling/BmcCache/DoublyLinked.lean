import Mathlib.Data.List.Induction
import Mathlib.Data.List.Nodup
import Mathlib.Logic.Function.Basic

/-!
# Doubly linked lists in memory

Nodes are addresses with two link fields, `next` and `prev`; `none` is the null pointer. A list is known by the pointers
to its first and its last node.

* `Seg next prev p l n` — the nodes `l` are linked both ways, the first back to `p` and the last on to `n`;
* `Dll next prev head tail l` — a whole list;
* `attachFront`, `attachBack`, `detach`, `insertBefore` — the link fields after a node has been put in front, put
  at the end, taken out, or put before another one. What they do to a list is said by `Dll.attachFront`,
  `Dll.attachBack`, `Dll.detach` and `Dll.insertBefore`; the fields of nodes that are not on the list stay as they
  are, so that a list they are on is not touched (`Dll.frame`).
-/

namespace DoublyLinked

open Function List

variable {A : Type*}

/-- The nodes `l` are linked both ways, the first back to `p` and the last on to `n`. -/
def Seg (next prev : A → Option A) : Option A → List A → Option A → Prop
  | _, [], _ => True
  | p, a :: l, n => prev a = p ∧ next a = l.head?.or n ∧ Seg next prev (some a) l n

variable {next prev next' prev' : A → Option A} {p n : Option A} {a b x : A} {l s t : List A}

theorem Seg.congr (h : Seg next prev p l n) (hnext : ∀ a ∈ l, next' a = next a)
    (hprev : ∀ a ∈ l, prev' a = prev a) :
    Seg next' prev' p l n := by
  induction l generalizing p with
  | nil => trivial
  | cons a l ih =>
    refine ⟨(hprev a mem_cons_self).trans h.1, (hnext a mem_cons_self).trans h.2.1, ih h.2.2 ?_ ?_⟩
    · exact fun b hb => hnext b (mem_cons_of_mem _ hb)
    · exact fun b hb => hprev b (mem_cons_of_mem _ hb)

theorem seg_append : Seg next prev p (s ++ t) n ↔ Seg next prev p s (t.head?.or n) ∧
    Seg next prev (s.getLast?.or p) t n := by
  induction s generalizing p with
  | nil => simp [Seg]
  | cons a s ih =>
    have hhead : (s ++ t).head?.or n = s.head?.or (t.head?.or n) := by
      cases s <;> simp
    have hlast : (a :: s).getLast?.or p = s.getLast?.or (some a) := by
      cases s <;> simp [getLast?_cons]
    rw [cons_append, Seg, Seg, ih, hhead, hlast]
    tauto

theorem seg_append_cons : Seg next prev p (s ++ a :: t) n ↔
    Seg next prev p s (some a) ∧ prev a = s.getLast?.or p ∧ next a = t.head?.or n ∧
      Seg next prev (some a) t n := by
  rw [seg_append, Seg, head?_cons, Option.some_or]

/-- **A doubly linked list** with its first and its last node. -/
structure Dll (next prev : A → Option A) (head tail : Option A) (l : List A) : Prop where
  head_eq : head = l.head?
  tail_eq : tail = l.getLast?
  seg : Seg next prev none l none

variable {head tail : Option A}

theorem dll_nil (next prev : A → Option A) : Dll next prev none none [] := ⟨rfl, rfl, trivial⟩

theorem Dll.frame (h : Dll next prev head tail l) (hnext : ∀ a ∈ l, next' a = next a)
    (hprev : ∀ a ∈ l, prev' a = prev a) :
    Dll next' prev' head tail l := ⟨h.head_eq, h.tail_eq, h.seg.congr hnext hprev⟩

theorem Dll.links (h : Dll next prev head tail (s ++ a :: t)) : prev a = s.getLast? ∧ next a = t.head? := by
  have hseg := seg_append_cons.mp h.seg
  rw [Option.or_none, Option.or_none] at hseg
  exact ⟨hseg.2.1, hseg.2.2.1⟩

theorem head?_ne_of_not_mem (h : a ∉ l) : l.head? ≠ some a := fun hh => h (mem_of_mem_head? hh)

theorem getLast?_ne_of_not_mem (h : a ∉ l) : l.getLast? ≠ some a := fun hh => h (mem_of_mem_getLast? hh)

variable [DecidableEq A]

theorem Seg.setNext (h : Seg next prev p (l ++ [x]) n) (hx : x ∉ l) (n' : Option A) :
    Seg (update next x n') prev p (l ++ [x]) n' := by
  rw [seg_append_cons] at h ⊢
  obtain ⟨hseg, hprev, -, -⟩ := h
  refine ⟨hseg.congr (fun a ha => update_of_ne (ne_of_mem_of_not_mem ha hx) _ _) fun _ _ => rfl, hprev, ?_, trivial⟩
  rw [update_self, head?_nil, Option.none_or]

theorem Seg.setPrev (h : Seg next prev p (x :: l) n) (hx : x ∉ l) (p' : Option A) :
    Seg next (update prev x p') p' (x :: l) n := by
  refine ⟨update_self _ _ _, h.2.1, h.2.2.congr (fun _ _ => rfl) fun a ha => ?_⟩
  exact update_of_ne (ne_of_mem_of_not_mem ha hx) _ _

/-! ### A field of the neighbour -/

def setAt (f : A → Option A) (q v : Option A) : A → Option A :=
  match q with
  | none => f
  | some b => update f b v

theorem setAt_of_ne (f : A → Option A) {q v : Option A} (h : q ≠ some x) : setAt f q v x = f x := by
  cases q with
  | none => rfl
  | some b => exact update_of_ne (fun hx => h (congrArg some hx.symm)) _ _

theorem Seg.setAtNext (h : Seg next prev p l n) (hnodup : l.Nodup) (n' : Option A) :
    Seg (setAt next l.getLast? n') prev p l n' := by
  induction l using reverseRecOn with
  | nil => trivial
  | append_singleton l x _ =>
    rw [getLast?_concat]
    exact h.setNext (fun hx => (nodup_append.mp hnodup).2.2 x hx x mem_cons_self rfl) n'

theorem Seg.setAtPrev (h : Seg next prev p l n) (hnodup : l.Nodup) (p' : Option A) :
    Seg next (setAt prev l.head? p') p' l n := by
  cases l with
  | nil => trivial
  | cons x l => exact h.setPrev (nodup_cons.mp hnodup).1 p'

/-! ### A node in front -/

/-- The fields after `a` has been put in front of the node `head`. -/
def attachFront (next prev : A → Option A) (head : Option A) (a : A) : (A → Option A) × (A → Option A) :=
  (update next a head, setAt (update prev a none) head (some a))

theorem Dll.attachFront (h : Dll next prev head tail l) (hnodup : l.Nodup) (ha : a ∉ l) :
    Dll (attachFront next prev head a).1 (attachFront next prev head a).2 (some a)
      (if tail = none then some a else tail) (a :: l) := by
  have hne : ∀ b ∈ l, b ≠ a := fun b hb => ne_of_mem_of_not_mem hb ha
  have hseg : Seg (update next a head) (update prev a none) none l none :=
    h.seg.congr (fun b hb => update_of_ne (hne b hb) _ _) fun b hb => update_of_ne (hne b hb) _ _
  have hhead : head ≠ some a := by
    rw [h.head_eq]
    exact fun hh => ha (mem_of_mem_head? hh)
  refine ⟨rfl, ?_, ?_, ?_, ?_⟩
  · rw [h.tail_eq]
    cases l using reverseRecOn with
    | nil => rfl
    | append_singleton l x => rw [getLast?_concat, if_neg (Option.some_ne_none x), ← cons_append,
        getLast?_concat]
  · exact (setAt_of_ne _ hhead).trans (update_self _ _ _)
  · rw [Option.or_none, ← h.head_eq]
    exact update_self _ _ _
  · have hset := hseg.setAtPrev hnodup (some a)
    rw [← h.head_eq] at hset
    exact hset

theorem attachFront_frame (hx : x ≠ a) (hhead : head ≠ some x) :
    (attachFront next prev head a).1 x = next x ∧ (attachFront next prev head a).2 x = prev x :=
  ⟨update_of_ne hx _ _, (setAt_of_ne _ hhead).trans (update_of_ne hx _ _)⟩

/-! ### A node at the end -/

/-- The fields after `a` has been put behind the node `tail`. -/
def attachBack (next prev : A → Option A) (tail : Option A) (a : A) : (A → Option A) × (A → Option A) :=
  (setAt (update next a none) tail (some a), update prev a tail)

theorem Dll.attachBack (h : Dll next prev head tail l) (hnodup : l.Nodup) (ha : a ∉ l) :
    Dll (attachBack next prev tail a).1 (attachBack next prev tail a).2 (if head = none then some a else head) (some a)
      (l ++ [a]) := by
  have hne : ∀ b ∈ l, b ≠ a := fun b hb => ne_of_mem_of_not_mem hb ha
  have hseg : Seg (update next a none) (update prev a tail) none l none :=
    h.seg.congr (fun b hb => update_of_ne (hne b hb) _ _) fun b hb => update_of_ne (hne b hb) _ _
  have htail : tail ≠ some a := by
    rw [h.tail_eq]
    exact fun ht => ha (mem_of_mem_getLast? ht)
  refine ⟨?_, ?_, seg_append_cons.mpr ⟨?_, ?_, ?_, trivial⟩⟩
  · rw [h.head_eq]
    cases l with
    | nil => rfl
    | cons x l => rfl
  · rw [getLast?_concat]
  · have hset := hseg.setAtNext hnodup (some a)
    rw [← h.tail_eq] at hset
    exact hset
  · rw [Option.or_none, ← h.tail_eq]
    exact update_self _ _ _
  · exact (setAt_of_ne _ htail).trans (update_self _ _ _)

theorem attachBack_frame (hx : x ≠ a) (htail : tail ≠ some x) :
    (attachBack next prev tail a).1 x = next x ∧ (attachBack next prev tail a).2 x = prev x :=
  ⟨(setAt_of_ne _ htail).trans (update_of_ne hx _ _), update_of_ne hx _ _⟩

/-! ### A node taken out -/

/-- The fields after `a` has been taken out: those of its neighbours. -/
def detach (next prev : A → Option A) (a : A) : (A → Option A) × (A → Option A) :=
  (setAt next (prev a) (next a), setAt prev (next a) (prev a))

/-- The pointers to the first and the last node after `a` has been taken out. -/
def endsWithout (next prev : A → Option A) (head tail : Option A) (a : A) : Option A × Option A :=
  (if head = some a then next a else head, if tail = some a then prev a else tail)

theorem Dll.detach (h : Dll next prev head tail (s ++ a :: t)) (hnodup : (s ++ a :: t).Nodup) :
    Dll (detach next prev a).1 (detach next prev a).2 (endsWithout next prev head tail a).1
      (endsWithout next prev head tail a).2 (s ++ t) := by
  obtain ⟨hprev, hnext⟩ := h.links
  obtain ⟨hs, -, -, ht⟩ := seg_append_cons.mp h.seg
  obtain ⟨hsn, hat, hdisj⟩ := nodup_append.mp hnodup
  obtain ⟨hat, htn⟩ := nodup_cons.mp hat
  have has : a ∉ s := fun hmem => hdisj a hmem a mem_cons_self rfl
  have hst : ∀ b ∈ s, b ∉ t := fun b hb hbt => hdisj b hb b (mem_cons_of_mem _ hbt) rfl
  refine ⟨?_, ?_, seg_append.mpr ⟨?_, ?_⟩⟩
  · show (if head = some a then next a else head) = _
    rw [h.head_eq]
    cases s with
    | nil => rw [nil_append, head?_cons, if_pos rfl, hnext, nil_append]
    | cons b s => exact if_neg (fun hb => has (by rw [← Option.some.inj hb]; exact mem_cons_self))
  · show (if tail = some a then prev a else tail) = _
    rw [h.tail_eq]
    cases t using reverseRecOn with
    | nil => rw [getLast?_concat, if_pos rfl, hprev, append_nil]
    | append_singleton t b =>
      rw [← cons_append, ← append_assoc, getLast?_concat, if_neg, ← append_assoc,
        getLast?_concat]
      exact fun hb => hat (by rw [← Option.some.inj hb]; exact mem_append_right _ mem_cons_self)
  · rw [Option.or_none]
    show Seg (setAt next (prev a) (next a)) (setAt prev (next a) (prev a)) none s t.head?
    rw [hprev, hnext]
    refine (hs.setAtNext hsn t.head?).congr (fun _ _ => rfl) fun b hb => ?_
    exact setAt_of_ne _ (head?_ne_of_not_mem (hst b hb))
  · rw [Option.or_none]
    show Seg (setAt next (prev a) (next a)) (setAt prev (next a) (prev a)) s.getLast? t none
    rw [hprev, hnext]
    refine (ht.setAtPrev htn s.getLast?).congr (fun b hb => ?_) fun _ _ => rfl
    exact setAt_of_ne _ (getLast?_ne_of_not_mem fun hbs => hst b hbs hb)

theorem detach_frame (hprev : prev a ≠ some x) (hnext : next a ≠ some x) :
    (detach next prev a).1 x = next x ∧ (detach next prev a).2 x = prev x :=
  ⟨setAt_of_ne _ hprev, setAt_of_ne _ hnext⟩

/-! ### A node before another one -/

/-- The fields after `a` has been put before `b`. -/
def insertBefore (next prev : A → Option A) (a b : A) : (A → Option A) × (A → Option A) :=
  (setAt (update next a (some b)) (prev b) (some a),
    update (update prev a (prev b)) b (some a))

theorem Dll.insertBefore (h : Dll next prev head tail (s ++ b :: t)) (hnodup : (s ++ b :: t).Nodup)
    (ha : a ∉ s ++ b :: t) :
    Dll (insertBefore next prev a b).1 (insertBefore next prev a b).2 (if head = some b then some a else head) tail
      (s ++ a :: b :: t) := by
  obtain ⟨hprev, hnext⟩ := h.links
  obtain ⟨hs, -, -, ht⟩ := seg_append_cons.mp h.seg
  obtain ⟨hsn, hbt, hdisj⟩ := nodup_append.mp hnodup
  obtain ⟨hbt, htn⟩ := nodup_cons.mp hbt
  simp only [mem_append, mem_cons, not_or] at ha
  obtain ⟨has, hab, hat⟩ := ha
  have hbs : b ∉ s := fun hmem => hdisj b hmem b mem_cons_self rfl
  have hst : ∀ x ∈ s, x ∉ t := fun x hx hxt => hdisj x hx x (mem_cons_of_mem _ hxt) rfl
  have hnx : ∀ x, x ∉ s → (DoublyLinked.insertBefore next prev a b).1 x = update next a (some b) x := by
    intro x hx
    refine setAt_of_ne _ ?_
    rw [hprev]
    exact getLast?_ne_of_not_mem hx
  have hpv : ∀ x, x ≠ a → x ≠ b → (DoublyLinked.insertBefore next prev a b).2 x = prev x := fun x hxa hxb =>
    (update_of_ne hxb _ _).trans (update_of_ne hxa _ _)
  have hne : ∀ x ∈ s, x ≠ a ∧ x ≠ b := fun x hx =>
    ⟨ne_of_mem_of_not_mem hx has, ne_of_mem_of_not_mem hx hbs⟩
  refine ⟨?_, ?_, seg_append_cons.mpr ⟨?_, ?_, ?_, ?_, ?_, ?_⟩⟩
  · rw [h.head_eq]
    cases s with
    | nil => exact if_pos rfl
    | cons x s => exact if_neg (fun hx => hbs (by rw [← Option.some.inj hx]; exact mem_cons_self))
  · rw [h.tail_eq, getLast?_append, getLast?_append, getLast?_cons_cons]
  · have hset := (hs.congr (fun x hx => update_of_ne (hne x hx).1 (some b) next) fun _ _ => rfl).setAtNext hsn
      (some a)
    rw [← hprev] at hset
    exact hset.congr (fun _ _ => rfl) fun x hx => hpv x (hne x hx).1 (hne x hx).2
  · rw [Option.or_none, ← hprev]
    exact (update_of_ne hab _ _).trans (update_self _ _ _)
  · exact (hnx a has).trans (update_self _ _ _)
  · exact update_self _ _ _
  · rw [hnx b hbs, update_of_ne (Ne.symm hab), hnext, Option.or_none]
  · refine ht.congr (fun x hx => ?_) fun x hx => hpv x (ne_of_mem_of_not_mem hx hat) (ne_of_mem_of_not_mem hx hbt)
    rw [hnx x fun hxs => hst x hxs hx, update_of_ne (ne_of_mem_of_not_mem hx hat)]

theorem insertBefore_frame (hxa : x ≠ a) (hxb : x ≠ b) (hprev : prev b ≠ some x) :
    (insertBefore next prev a b).1 x = next x ∧ (insertBefore next prev a b).2 x = prev x :=
  ⟨(setAt_of_ne _ hprev).trans (update_of_ne hxa _ _),
    (update_of_ne hxb _ _).trans (update_of_ne hxa _ _)⟩

end DoublyLinked
