import Mathlib.Data.List.Nodup
import Locking.Proofs.Cascade.Effects
import Locking.Proofs.Table.Holders

/-!
# Who comes to hold a resource

Where no lock is taken away from a transaction that waits, it is known beforehand in which order
locks on a resource come to be held: first the locks that are there, and then those of the requests
that wait for it. A cascade only leaves out some of them.

* `Cascade.Clear`: nothing on the agenda is done for a transaction that waits, and every transaction
  waits for one request at most.
* `Cascade.succession`: who holds a resource, and who will come to hold it, in order of first grant.
* `Clear.sublist_step`, `Clear.sublist_run`: a cascade only leaves out some of them.
* `eq_of_sublist`: parts of one order that leave out the same are the same.
-/

namespace Locking

/-- Parts of a list without repetitions are the same if the same is in them. -/
theorem eq_of_sublist {A : Type} [DecidableEq A] {l l₁ l₂ : List A} (hl : l.Nodup)
    (h₁ : l₁.Sublist l) (h₂ : l₂.Sublist l) (hmem : ∀ a, a ∈ l₁ ↔ a ∈ l₂) : l₁ = l₂ := by
  have hpart : ∀ {k : List A}, k.Sublist l → k = l.filter (· ∈ k) := by
    intro k hk
    have hsub : (k.filter (· ∈ k)).Sublist (l.filter (· ∈ k)) := hk.filter _
    rw [List.filter_eq_self.2 fun a ha => by simpa using ha] at hsub
    have hperm : k.Perm (l.filter (· ∈ k)) := by
      refine (List.perm_ext_iff_of_nodup (hl.sublist hk) (hl.filter _)).2 fun a => ?_
      simpa using fun ha => hk.subset ha
    exact hsub.eq_of_length hperm.length_eq
  rw [hpart h₁, hpart h₂]
  exact List.filter_congr fun a _ => by simp [hmem a]

theorem count_map_eq_sumOf {A B : Type} [DecidableEq B] (f : A → B) (b : B) (as : List A) :
    (as.map f).count b = sumOf (fun a => if f a = b then 1 else 0) as := by
  induction as with
  | nil => rfl
  | cons a as ih =>
    rw [List.map_cons, List.count_cons, sumOf_cons, ih, Nat.add_comm]
    simp

/-- What is counted at most once for every value of a function takes no value twice. -/
theorem nodup_map_of_sumOf_le {A B : Type} [DecidableEq B] {f : A → B} {as : List A}
    (h : ∀ b, sumOf (fun a => if f a = b then 1 else 0) as ≤ 1) : (as.map f).Nodup :=
  List.nodup_iff_count_le_one.2 fun b => count_map_eq_sumOf f b as ▸ h b

/-- Who holds a resource, and who will come to hold it: first the holders, and then those who wait
and do not hold it yet. -/
def inTurn (holders waiting : List TxnId) : List TxnId :=
  holders ++ waiting.filter (· ∉ holders)

section InTurn

variable {holders waiting : List TxnId} {txn : TxnId}

/-- Whose turn it is comes to hold the resource, if it does not already. -/
theorem inTurn_install :
    (inTurn (if txn ∈ holders then holders else holders ++ [txn]) waiting).Sublist
      (inTurn holders (txn :: waiting)) := by
  unfold inTurn
  by_cases h : txn ∈ holders
  · simp [h]
  · rw [if_neg h, List.filter_cons_of_pos (by simpa using h), List.append_assoc]
    refine (List.Sublist.refl holders).append (List.Sublist.cons_cons txn ?_)
    -- who waits behind and is the same does not come to hold it anew
    refine List.monotone_filter_right waiting fun u hu => ?_
    simp only [List.mem_append, decide_eq_true_eq] at hu ⊢
    exact fun hm => hu (.inl hm)

/-- Who does not wait leaves. -/
theorem inTurn_leave (h : txn ∉ waiting) :
    (inTurn (holders.filter (· ≠ txn)) waiting).Sublist (inTurn holders waiting) := by
  have hsame : waiting.filter (· ∉ holders.filter (· ≠ txn)) = waiting.filter (· ∉ holders) := by
    refine List.filter_congr fun u hu => ?_
    have hne : u ≠ txn := fun he => h (he ▸ hu)
    simp [hne]
  unfold inTurn
  rw [hsame]
  exact List.filter_sublist.append (.refl _)

theorem nodup_inTurn (h : holders.Nodup) (hw : waiting.Nodup) : (inTurn holders waiting).Nodup := by
  refine List.nodup_append.2 ⟨h, hw.filter _, fun u hu v hv he => ?_⟩
  have hnot := (List.mem_filter.1 hv).2
  simp only [decide_eq_true_eq] at hnot
  exact hnot (he ▸ hu)

end InTurn

namespace Cascade

variable {t t' : Table} {task : Task} {tasks rest new : List Task} {es : List Event} {r : Resource}

/-- Nothing on the agenda is done for a transaction that waits, and at most one request of every
transaction waits. -/
structure Clear (t : Table) (tasks : List Task) : Prop extends Poised t tasks where
  one : ∀ txn, t.queuedSum (Request.isOf txn) ≤ 1
  idle : ∀ task ∈ tasks, ∀ txn, task.owner? = some txn → t.queuedSum (Request.isOf txn) = 0

/-- Who is granted a lock on the resource by a task. -/
def Task.installs (r : Resource) : Task → List TxnId
  | grant lock => if lock.resource = r then [lock.owner] else []
  | release _ | giveUp _ _ | wake _ | drain _ | prune _ => []

/-- Who is to be granted a lock on the resource, and then who waits for one. -/
def nextIn (t : Table) (tasks : List Task) (r : Resource) : List TxnId :=
  tasks.flatMap (Task.installs r) ++ (t.queue r).map (·.lock.owner)

/-- Who holds the resource, and who will come to hold it. -/
def succession (t : Table) (tasks : List Task) (r : Resource) : List TxnId :=
  inTurn (t.owners r) (nextIn t tasks r)

theorem installs_eq_nil (h : ∀ lock, .grant lock ∉ tasks) :
    tasks.flatMap (Task.installs r) = [] := by
  refine List.flatMap_eq_nil_iff.2 fun task hm => ?_
  cases task with
  | grant lock => exact absurd hm (h lock)
  | _ => rfl

/-- Who is granted a lock is told by the first task, and who waits by the queue. -/
theorem nextIn_cons (h : Poised t (task :: rest)) :
    nextIn t (task :: rest) r = task.installs r ++ (t.queue r).map (·.lock.owner) := by
  have hrest : ∀ lock, .grant lock ∉ rest := fun lock => h.tail
  rw [nextIn, List.flatMap_cons, installs_eq_nil hrest, List.append_nil]

theorem nextIn_of_not_grant (h : ∀ lock, .grant lock ∉ tasks) :
    nextIn t tasks r = (t.queue r).map (·.lock.owner) := by
  rw [nextIn, installs_eq_nil h, List.nil_append]

/-- A request whose transaction does not wait is in no queue. -/
theorem ne_of_queuedSum_eq_zero {txn : TxnId} (h : t.queuedSum (Request.isOf txn) = 0) {q : Request}
    (hq : q ∈ t.queue r) : q.txn.id ≠ txn := by
  intro hid
  have hzero := sumOf_eq_zero_iff.1 (Table.queuedSum_eq_zero_iff.1 h r) q hq
  rw [Request.isOf, if_pos hid] at hzero
  cases hzero

namespace Clear

theorem settled (h : Clear t tasks) (txn : TxnId) : Settled txn t tasks where
  one := h.one txn
  idle := fun hne task hm ho => hne (h.idle task (List.mem_of_mem_tail hm) txn ho)

/-- Who is not waiting waits for no resource. -/
theorem not_mem_queue (h : Clear t tasks) (hm : task ∈ tasks) {txn : TxnId}
    (ho : task.owner? = some txn) : txn ∉ (t.queue r).map (·.lock.owner) := by
  intro hin
  obtain ⟨q, hq, rfl⟩ := List.mem_map.1 hin
  exact ne_of_queuedSum_eq_zero (h.idle task hm _ ho) hq (h.sound.proper hq).owner.symm

/-- **Every task leads from a clear agenda to a clear agenda.** -/
theorem step (h : Clear t (task :: rest)) (he : Effect t task t' es new) :
    Clear t' (new ++ rest) := by
  have hsum := fun txn => he.queuedSum_eq (Request.isOf txn)
  refine ⟨h.toPoised.step he, fun txn => ?_, fun a hm txn ho => ?_⟩
  · have hone := h.one txn
    have := hsum txn
    omega
  · rcases List.mem_append.1 hm with hm | hm
    · have hhead := h.idle task List.mem_cons_self txn
      have hsum := hsum txn
      cases he with
      | release ht =>
        simp only [List.mem_cons, List.not_mem_nil, or_false] at hm
        rcases hm with rfl | rfl <;> cases ho
      | giveUp hh =>
        obtain ⟨rfl, -, -⟩ := h.sound.of_held? hh
        rw [List.mem_singleton.1 hm] at ho
        exact hhead ho
      | @serve r q _ hp =>
        -- the request was the only one of its transaction
        have howner : q.txn.id = txn := by
          by_contra hne
          exact owner?_of_mem_serve (h.sound.of_pop? hp).1.owner hm hne ho
        have hone := h.one txn
        have htaken : sumOf (Request.isOf txn) (taken [.granting q]) = 1 := by
          simp [taken, Event.taken?, Request.isOf, howner]
        omega
      | _ => cases hm
    · have hrest := h.idle a (List.mem_cons_of_mem _ hm) txn ho
      have := hsum txn
      omega

/-- **Every task only leaves out some of those who would come to hold a resource.** -/
theorem sublist_step (h : Clear t (task :: rest)) (he : Effect t task t' es new) (r : Resource) :
    (succession t' (new ++ rest) r).Sublist (succession t (task :: rest) r) := by
  have hrest : ∀ {new' : List Task}, (∀ lock, .grant lock ∉ new') →
      ∀ u : Table, nextIn u (new' ++ rest) r = (u.queue r).map (·.lock.owner) := by
    intro new' hnew u
    refine nextIn_of_not_grant fun lock hm => ?_
    exact (List.mem_append.1 hm).elim (hnew lock) h.tail
  rw [succession, succession, nextIn_cons h.toPoised]
  cases he with
  | @grant lock _ e hp =>
    rw [hrest (by simp), h.sound.owners_put hp, Table.queue_put hp, Task.installs]
    by_cases hr : lock.resource = r
    · rw [if_pos hr, if_pos hr]
      exact inTurn_install
    · rw [if_neg hr, if_neg hr]
      exact .refl _
  | @release lock _ ht =>
    rw [hrest (by simp), h.sound.owners_take ht, Table.queue_take ht, Task.installs,
      List.nil_append]
    split
    · exact inTurn_leave (h.not_mem_queue List.mem_cons_self rfl)
    · exact .refl _
  | gone hh =>
    rw [hrest (by simp)]
    exact .refl _
  | giveUp hh =>
    rw [hrest (by simp)]
    exact .refl _
  | wake q =>
    rw [hrest (by simp)]
    exact .refl _
  | drained hp =>
    rw [hrest (by simp)]
    exact .refl _
  | @serve s q _ hp =>
    obtain ⟨hqueue, hother⟩ := Table.queue_pop? hp
    have hresource := (h.sound.of_pop? hp).1.resource
    have hpoised : Poised t' (serve s q ++ rest) := h.toPoised.step (.serve hp)
    have howners : t'.owners r = t.owners r := by rw [Table.owners, Table.locksOn_pop? hp]; rfl
    have hnext : nextIn t' (serve s q ++ rest) r = (t.queue r).map (·.lock.owner) := by
      rw [serve, List.cons_append, List.cons_append] at hpoised ⊢
      rw [nextIn_cons hpoised, Task.installs, hresource]
      by_cases hs : s = r
      · subst hs
        rw [if_pos rfl, hqueue]
        rfl
      · rw [if_neg hs, hother r hs]
        rfl
    rw [howners, hnext, Task.installs, List.nil_append]
  | prune s =>
    have howners : (t.prune s).owners r = t.owners r := by
      rw [Table.owners, t.locksOn_prune, Table.owners]
    rw [hrest (by simp), howners, t.queue_prune, Task.installs, List.nil_append]

/-- **A cascade only leaves out some of those who would come to hold a resource**, and keeps the
order of the others. -/
theorem sublist_run (h : Clear t tasks) (hf : (Cascade.run t tasks).fault? = none) (r : Resource) :
    ((Cascade.run t tasks).table.owners r).Sublist (succession t tasks r) := by
  obtain ⟨-, hend⟩ := run_end
    (P := fun u left _ => Clear u left ∧ (succession u left r).Sublist (succession t tasks r))
    (fun ⟨hc, hs⟩ he => ⟨hc.step he, (hc.sublist_step he r).trans hs⟩) ⟨h, .refl _⟩ hf
  exact (List.sublist_append_left _ _).trans hend

/-- Nobody comes to hold a resource twice. -/
theorem nodup_succession (h : Clear t tasks) (hn : ∀ lock, .grant lock ∉ tasks) (r : Resource) :
    (succession t tasks r).Nodup := by
  rw [succession, nextIn_of_not_grant hn]
  have howner : (t.queue r).map (·.lock.owner) = (t.queue r).map (·.txn.id) :=
    List.map_congr_left fun q hq => (h.sound.proper hq).owner
  refine nodup_inTurn (h.sound.nodup_owners r) (howner ▸ nodup_map_of_sumOf_le fun txn => ?_)
  have hsum : sumOf (Request.isOf txn) (t.queue r) ≤ t.queuedSum (Request.isOf txn) := by
    rw [← Table.weigh_entries]
    exact Map.weigh_le_total _ t.entries r
  exact Nat.le_trans hsum (h.one txn)

end Clear

end Cascade

end Locking
