import Locking.Proofs.Cascade.Releases
import Locking.Proofs.Detour

/-!
# Releases commute

Two locks of transactions that do not wait may be released in either order, of one manager or of
two. The cascades that they set off may grant each other's requests, but where both have been
released makes no difference.

* `Orderly.release`: where the release of one lock leads.
* `Releasable.rest`: where some locks have been released, the others still may be.
* `System.releases_commute`: two releases in either order, in every disciplined run.
-/

namespace Locking

open Cascade

namespace Table

variable {t : Table} {xs ys : List Lock} {lock : Lock}

/-- Locks are released part by part. -/
theorem releaseAll_append (hf : (t.releaseAll xs).fault? = none) (ys : List Lock) :
    (t.releaseAll (xs ++ ys)).table = ((t.releaseAll xs).table.releaseAll ys).table ∧
      (t.releaseAll (xs ++ ys)).events =
        (t.releaseAll xs).events ++ ((t.releaseAll xs).table.releaseAll ys).events := by
  unfold releaseAll at hf ⊢
  rw [List.map_append, run_append]
  simp only [Outcome.andThen, hf, and_self]

theorem Releasable.part (h : t.Releasable (xs ++ ys)) : t.Releasable xs where
  toSound := h.toSound
  held := fun lock hm => h.held lock (List.mem_append_left ys hm)
  nodup := (List.nodup_append.1 h.nodup).1
  idle := fun lock hm => h.idle lock (List.mem_append_left ys hm)
  one := h.one

/-- Where some locks have been released, the others are still held. -/
theorem Releasable.held?_of_append (h : t.Releasable (xs ++ ys)) (hm : lock ∈ ys) :
    (t.releaseAll xs).table.held? lock.owner lock.resource = some lock := by
  have hkept := h.kept
  rw [List.map_append] at hkept
  exact (hkept.after h.part.fault?_all).held (List.mem_map_of_mem hm)

end Table

namespace System

variable {s : System} {m n : Nat} {txn other : Txn} {r u : Resource} {a b lock : Lock}
  {txns : List Txn} {as : List Action} {settings : Settings}

/-- What a manager is to release where a lock is to be released by another manager, or by itself. -/
def share (k m : Nat) (lock : Lock) : List Lock := if m = k then [lock] else []

theorem mem_share {k : Nat} (hm : a ∈ share k m lock) : m = k ∧ a = lock := by
  unfold share at hm
  split at hm
  · rename_i hk
    exact ⟨hk, List.mem_singleton.1 hm⟩
  · cases hm

namespace Orderly

/-- Locks of transactions whose gates are open may be released in any order. -/
theorem releasable (h : Orderly txns s) (hids : DistinctIds txns) {locks : List Lock}
    (hnodup : locks.Nodup)
    (hlocks : ∀ lock ∈ locks, (s.table m).held? lock.owner lock.resource = some lock ∧
      ∃ txn ∈ txns, lock.owner = txn.id ∧ s.gates.isClosed txn = false) :
    (s.table m).Releasable locks where
  toSound := h.sound m
  held := fun lock hm => (hlocks lock hm).1
  nodup := hnodup
  idle := fun lock hm => by
    obtain ⟨-, txn, htxn, ho, hg⟩ := hlocks lock hm
    exact ho ▸ h.queuedSum_isOf_of_open hids htxn hg m
  one := h.queuedSum_isOf_le hids m

/-- **Where the release of a lock leads** that its transaction holds. -/
theorem release (h : Orderly txns s) (hids : DistinctIds txns) (htxn : txn ∈ txns)
    (hh : (s.table m).held? txn.id r = some lock) :
    let d := s.decide m txn (.release r)
    d.verdict = .done ∧ d.events = ((s.table m).releaseAll [lock]).events ∧
      (∀ k, d.system.table k = ((s.table k).releaseAll (share k m lock)).table) ∧
      d.system.gates = s.gates.afterEvents d.events ∧
      (∀ w, d.system.queuedSum w + sumOf w (woken d.events) = s.queuedSum w) ∧
      Orderly txns d.system := by
  intro d
  have hd : Decided s m txn (.release r) d := System.decided h.sound m txn (.release r)
  have hp : (s.table m).plan txn (.release r) = .ok (.go [.release lock]) := by
    simp only [Table.plan, Table.planRelease, hh]
  have hf : ((s.table m).releaseAll [lock]).fault? = none :=
    ((Table.planned_of_plan (h.sound m) hp).kept (h.sound m) fun hcall => absurd rfl hcall).run.1
  obtain ⟨hv, he, ht, hgates⟩ := hd.of_go hp hf
  refine ⟨hv, he, fun k => ?_, he.symm ▸ hgates, fun w => ?_, ?_⟩
  · unfold share
    split
    · rename_i hk
      exact hk ▸ ht
    · rename_i hk
      rw [hd.table_other hk, Table.releaseAll, List.map_nil, Cascade.run_nil]
  · obtain ⟨hwaiting, hwoken⟩ := hd.conserves h.sound (by rw [hv]; rfl) w
    rw [he, Cascade.joined_run, ← he, ← hwoken] at hwaiting
    exact hwaiting
  · refine h.act (a := .decide m txn (.release r)) hids (.inl rfl) ?_
    rintro _ ⟨⟩
    exact htxn

/-- Two different locks of transactions whose gates are open may be released in either order. -/
theorem releasable_two (h : Orderly txns s) (hids : DistinctIds txns) (htxn : txn ∈ txns)
    (hother : other ∈ txns) (hopen : s.gates.isClosed txn = false)
    (hopen' : s.gates.isClosed other = false) (ha : (s.table m).held? txn.id r = some a)
    (hb : (s.table n).held? other.id u = some b) (hne : m ≠ n ∨ txn.id ≠ other.id ∨ r ≠ u)
    (k : Nat) : (s.table k).Releasable (share k m a ++ share k n b) := by
  obtain ⟨hao, har, -⟩ := (h.sound m).of_held? ha
  obtain ⟨hbo, hbu, -⟩ := (h.sound n).of_held? hb
  refine h.releasable hids (List.nodup_append.2 ⟨?_, ?_, fun x hx y hy hxy => ?_⟩) fun x hx => ?_
  · unfold share
    split <;> simp
  · unfold share
    split <;> simp
  · -- two locks of one manager differ in their owners or in their resources
    obtain ⟨rfl, rfl⟩ := mem_share hx
    obtain ⟨rfl, rfl⟩ := mem_share hy
    rcases hne with hm | ho | hr
    · exact hm rfl
    · exact ho (hao.symm.trans ((congrArg Lock.owner hxy).trans hbo))
    · exact hr (har.symm.trans ((congrArg Lock.resource hxy).trans hbu))
  · rcases List.mem_append.1 hx with hx | hx
    · obtain ⟨rfl, rfl⟩ := mem_share hx
      exact ⟨by rw [hao, har]; exact ha, txn, htxn, hao, hopen⟩
    · obtain ⟨rfl, rfl⟩ := mem_share hx
      exact ⟨by rw [hbo, hbu]; exact hb, other, hother, hbo, hopen'⟩

/-- **Where two releases lead.** Each manager has released its share of the locks. -/
theorem release_two (h : Orderly txns s) (hids : DistinctIds txns) (htxn : txn ∈ txns)
    (hother : other ∈ txns) (ha : (s.table m).held? txn.id r = some a)
    (hb : (s.table n).held? other.id u = some b)
    (hr : ∀ k, (s.table k).Releasable (share k m a ++ share k n b)) :
    let d := s.decide m txn (.release r)
    let d' := d.system.decide n other (.release u)
    d.verdict = .done ∧ d'.verdict = .done ∧
      (∀ k, d'.system.table k = ((s.table k).releaseAll (share k m a ++ share k n b)).table) ∧
      d'.system.gates = s.gates.afterEvents (d.events ++ d'.events) ∧
      (∀ w, d'.system.queuedSum w + sumOf w (woken (d.events ++ d'.events)) = s.queuedSum w) ∧
      (m = n → d.events ++ d'.events = ((s.table m).releaseAll ([a] ++ [b])).events) ∧
      (m ≠ n → d.events ++ d'.events =
        ((s.table m).releaseAll [a]).events ++ ((s.table n).releaseAll [b]).events) := by
  intro d d'
  obtain ⟨hv, he, ht, hgates, hsum, h'⟩ := h.release hids htxn ha
  -- the lock that is to be released second is still held
  have hb' : (d.system.table n).held? other.id u = some b := by
    obtain ⟨ho, hu, -⟩ := (h.sound n).of_held? hb
    have hmem : b ∈ share n n b := by simp [share]
    have hheld := (hr n).held?_of_append hmem
    rwa [← ht, ho, hu] at hheld
  obtain ⟨hv', he', ht', hgates', hsum', -⟩ := h'.release hids hother hb'
  have happend : ∀ k, _ := fun k =>
    Table.releaseAll_append (hr k).part.fault?_all (share k n b)
  refine ⟨hv, hv', fun k => ?_, ?_, fun w => ?_, ?_, fun hne => ?_⟩
  · rw [(happend k).1, ← ht]
    exact ht' k
  · rw [Gates.afterEvents_append, ← hgates]
    exact hgates'
  · have hfirst : d.system.queuedSum w + sumOf w (woken d.events) = s.queuedSum w := hsum w
    have hsecond : d'.system.queuedSum w + sumOf w (woken d'.events) = d.system.queuedSum w :=
      hsum' w
    rw [woken_append, sumOf_append]
    omega
  · rintro rfl
    have hevents := (happend m).2
    rw [← ht] at hevents
    simp only [share, if_true] at hevents
    rw [hevents, he]
    exact congrArg _ he'
  · have hsame : d.system.table n = s.table n := by
      rw [ht, share, if_neg hne, Table.releaseAll, List.map_nil, Cascade.run_nil]
    rw [he, ← hsame]
    exact congrArg _ he'

/-- At most one request of a transaction waits, so it is woken at most once where nothing has come
to wait. -/
theorem nodup_woken (h : Orderly txns s) {s' : System} {es : List Event}
    (hsum : ∀ w, s'.queuedSum w + sumOf w (woken es) = s.queuedSum w) :
    ((woken es).map (·.txn.key)).Nodup := by
  refine nodup_map_of_sumOf_le fun key => ?_
  have hsum : s'.queuedSum (Request.isFrom key) + sumOf (Request.isFrom key) (woken es) =
      s.waitingFor key := hsum _
  have hclosed : _ = s.waitingFor key := h.closed ⟨key, 0⟩
  have hone := Bool.toNat_le (s.gates.isClosed ⟨key, 0⟩)
  change sumOf (Request.isFrom key) (woken es) ≤ 1
  omega

end Orderly

/-- **Releases commute**, wherever a disciplined run stands. Two locks of transactions that do not
wait, of one manager or of two, may be released in either order. All releases go through, and where
they lead no query tells the orders apart, though the slots of locks may be others; the gates are the
same, and the same requests have been granted and woken, each once, perhaps in another order. -/
theorem releases_commute (h : Disciplined settings as)
    (hids : DistinctIds (txn :: other :: callers as)) (m n : Nat) (r u : Resource)
    (hopen : ((start settings).after as).gates.isClosed txn = false)
    (hopen' : ((start settings).after as).gates.isClosed other = false)
    (hheld : (((start settings).after as).table m).mode txn.id r ≠ .nl)
    (hheld' : (((start settings).after as).table n).mode other.id u ≠ .nl)
    (hne : m ≠ n ∨ txn.id ≠ other.id ∨ r ≠ u) :
    let s := (start settings).after as
    let first := s.decide m txn (.release r)
    let both := first.system.decide n other (.release u)
    let first' := s.decide n other (.release u)
    let both' := first'.system.decide m txn (.release r)
    (first.verdict = .done ∧ both.verdict = .done ∧ first'.verdict = .done ∧
      both'.verdict = .done) ∧
    (∀ k, (both'.system.table k).Alike (both.system.table k)) ∧
    (∀ t, both'.system.gates.gate t = both.system.gates.gate t) ∧
    (woken (first'.events ++ both'.events)).Perm (woken (first.events ++ both.events)) ∧
    ((woken (first.events ++ both.events)).map (·.txn.key)).Nodup := by
  intro s first both first' both'
  have hunder : Underway (txn :: other :: callers as) (start settings) as :=
    { orderly_start settings _ with
      ids := hids
      allowed := h.allowed
      callers := fun _ hm => List.mem_cons_of_mem _ (List.mem_cons_of_mem _ hm) }
  have horder : Orderly _ s := hunder.orderly_after
  have hquiet : s.Quiet := quiet_run hunder.unbroken
  have htxn : txn ∈ txn :: other :: callers as := List.mem_cons_self
  have hother : other ∈ txn :: other :: callers as := List.mem_cons_of_mem _ List.mem_cons_self
  obtain ⟨a, ha⟩ :=
    Option.ne_none_iff_exists'.1 (mt (horder.sound m).mode_eq_nl_iff.2 hheld)
  obtain ⟨b, hb⟩ :=
    Option.ne_none_iff_exists'.1 (mt (horder.sound n).mode_eq_nl_iff.2 hheld')
  have hr : ∀ k, (s.table k).Releasable (share k m a ++ share k n b) := fun k =>
    horder.releasable_two hids htxn hother hopen hopen' ha hb hne k
  have hswap : ∀ k, (share k n b ++ share k m a).Perm (share k m a ++ share k n b) := fun k =>
    List.perm_append_comm
  obtain ⟨hv₁, hv₂, ht, hg, hsum, hsame, hother₁⟩ :=
    horder.release_two hids htxn hother ha hb hr
  obtain ⟨hv₁', hv₂', ht', hg', -, hsame', hother₁'⟩ :=
    horder.release_two hids hother htxn hb ha fun k => (hr k).perm (hswap k)
  have hwoken : (woken (first'.events ++ both'.events)).Perm
      (woken (first.events ++ both.events)) := by
    by_cases hm : m = n
    · subst hm
      have hboth : (s.table m).Releasable ([a] ++ [b]) := by simpa [share] using hr m
      rw [hsame rfl, hsame' rfl]
      exact (hboth.perm_all (hquiet m) List.perm_append_comm).2
    · rw [hother₁ hm, hother₁' (Ne.symm hm), woken_append, woken_append]
      exact List.perm_append_comm
  refine ⟨⟨hv₁, hv₂, hv₁', hv₂'⟩, fun k => ?_, fun t => ?_, hwoken, horder.nodup_woken hsum⟩
  · rw [ht, ht']
    exact ((hr k).perm_all (hquiet k) (hswap k)).1
  · rw [hg, hg', Gates.gate_afterEvents, Gates.gate_afterEvents, sumOf_perm hwoken]

/-- Transactions 1 and 2 hold shared locks, and transaction 3 waits for both of them, to give up
another lock then for which transaction 4 waits. -/
def shared : List Action :=
  [.decide 0 ⟨0, 1⟩ (.acquire (.root "a") .s), .decide 0 ⟨1, 2⟩ (.acquire (.root "a") .s),
    .decide 0 ⟨2, 3⟩ (.acquire (.root "b") .x),
    .decide 0 ⟨2, 3⟩ (.exchange (.root "a") .x [.root "b"]),
    .decide 0 ⟨3, 4⟩ (.acquire (.root "b") .s)]

theorem releases_commute_shared :
    Disciplined {} shared ∧ DistinctIds (⟨0, 1⟩ :: ⟨1, 2⟩ :: callers shared) ∧
      ((start {}).after shared).gates.isClosed ⟨0, 1⟩ = false ∧
      ((start {}).after shared).gates.isClosed ⟨1, 2⟩ = false ∧
      (((start {}).after shared).table 0).mode 1 (.root "a") ≠ .nl ∧
      (((start {}).after shared).table 0).mode 2 (.root "a") ≠ .nl ∧
      let s := (start {}).after shared
      let first := s.decide 0 ⟨0, 1⟩ (.release (.root "a"))
      let both := first.system.decide 0 ⟨1, 2⟩ (.release (.root "a"))
      let first' := s.decide 0 ⟨1, 2⟩ (.release (.root "a"))
      let both' := first'.system.decide 0 ⟨0, 1⟩ (.release (.root "a"))
      (both'.system.table 0).Alike (both.system.table 0) ∧
        (woken (first'.events ++ both'.events)).Perm (woken (first.events ++ both.events)) := by
  have h : Disciplined {} shared := ⟨by decide +kernel, by decide +kernel⟩
  have hids : DistinctIds (⟨0, 1⟩ :: ⟨1, 2⟩ :: callers shared) := by decide +kernel
  have hopen : ((start {}).after shared).gates.isClosed ⟨0, 1⟩ = false := by decide +kernel
  have hopen' : ((start {}).after shared).gates.isClosed ⟨1, 2⟩ = false := by decide +kernel
  have hheld : (((start {}).after shared).table 0).mode 1 (.root "a") ≠ .nl := by decide +kernel
  have hheld' : (((start {}).after shared).table 0).mode 2 (.root "a") ≠ .nl := by decide +kernel
  obtain ⟨-, halike, -, hwoken, -⟩ := releases_commute h hids 0 0 (.root "a") (.root "a") hopen
    hopen' hheld hheld' (.inr (.inl (by decide)))
  exact ⟨h, hids, hopen, hopen', hheld, hheld', halike 0, hwoken⟩

end System

end Locking
