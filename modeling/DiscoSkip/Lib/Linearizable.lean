import Mathlib.Data.List.Perm.Subperm
import Mathlib.Data.Prod.Lex
import Mathlib.Order.BooleanAlgebra.Basic

/-!
# Registers and their histories

A *history* is what the users of a register have done: operations that write a value or
have read one, each from its start to its end, if it has ended. One operation is *before*
another one if it has ended when the other one starts.

* A history is *regular* if every read returns the value of a write that neither starts
  after it nor has been overwritten before it starts;
* it is *linearizable* if its operations, those that have ended and some of the others,
  can be put in an order that keeps what is before what, and in which every read returns
  the value written last.

Protocols that keep a *tag* with every value establish this by the order of the tags. If
the writes have greater tags than those before them, and the reads return none of a lesser
tag than that of a write before them, the history is regular (`RegularTags.regular`). If,
besides, the tags of the writes all differ, and no operation comes to a lesser tag than a
read before it, it is linearizable (`AtomicTags.linearizable`): in the order of the tags,
with every write before the reads of its tag.
-/

namespace DiscoSkip.Lib

variable {ι V T : Type*}

/-- What an operation does: it writes a value, or it has read one. -/
inductive Access (V : Type*)
  | write (v : V)
  | read (v : V)
  deriving DecidableEq, Repr

/-- The operations of a history: when they start, when they end, if they have, and what
    they do. -/
structure History (ι V : Type*) where
  start : ι → ℕ
  stop : ι → Option ℕ
  access : ι → Access V

namespace History

variable (h : History ι V)

/-- The operation `o` has ended when `o'` starts. -/
def Before (o o' : ι) : Prop := ∃ t ∈ h.stop o, t < h.start o'

/-- The operation `o` is a write. -/
def Writes (o : ι) : Prop := ∃ v, h.access o = .write v

/-- One after the other, the operations read what has been written last, `v` at first. -/
def Legal (v : V) : List ι → Prop
  | [] => True
  | o :: l => match h.access o with
    | .write v' => Legal v' l
    | .read v' => v' = v ∧ Legal v l

/-- The operations `ops`, those that have ended and some of the others, can be put in an
    order which keeps what is before what and in which the reads are legal. -/
def Linearizable (v : V) (ops : List ι) : Prop :=
  ∃ l, l.Subperm ops ∧ (∀ o ∈ ops, (h.stop o).isSome → o ∈ l) ∧
    l.Pairwise (fun o o' => ¬h.Before o' o) ∧ h.Legal v l

/-- Every read of `ops` that has ended returns the value of a write that does not start
    after it and is not overwritten before it, or the first value `v`, if no write is
    before it. -/
def Regular (v : V) (ops : List ι) : Prop :=
  ∀ o ∈ ops, (h.stop o).isSome → ∀ x, h.access o = .read x →
    (∃ w ∈ ops, h.access w = .write x ∧ ¬h.Before o w ∧
      ∀ w' ∈ ops, h.Writes w' → ¬(h.Before w w' ∧ h.Before w' o)) ∨
    x = v ∧ ∀ w ∈ ops, h.Writes w → ¬h.Before w o

variable {h}

theorem legal_write {v v' : V} {o : ι} {l : List ι} (ho : h.access o = .write v') :
    h.Legal v (o :: l) ↔ h.Legal v' l := by
  rw [Legal, ho]

theorem legal_read {v v' : V} {o : ι} {l : List ι} (ho : h.access o = .read v') :
    h.Legal v (o :: l) ↔ v' = v ∧ h.Legal v l := by
  rw [Legal, ho]

variable [LinearOrder T]

variable (h) in
/-- The operations `ops` have tags by which what they read is regular. -/
structure RegularTags (v : V) (ops : List ι) (tag : ι → T) : Prop where
  write_lt : ∀ w ∈ ops, ∀ w' ∈ ops, h.Writes w → h.Writes w' → h.Before w w' → tag w < tag w'
  write_le : ∀ w ∈ ops, ∀ o ∈ ops, h.Writes w → ¬h.Writes o → h.Before w o → tag w ≤ tag o
  read : ∀ o ∈ ops, ∀ x, h.access o = .read x →
    (∃ w ∈ ops, h.access w = .write x ∧ tag w = tag o ∧ ¬h.Before o w) ∨
    x = v ∧ ∀ w ∈ ops, h.Writes w → tag o < tag w

variable (h) in
/-- The operations `ops` have tags by which they are atomic. -/
structure AtomicTags (v : V) (ops : List ι) (tag : ι → T) : Prop
    extends RegularTags h v ops tag where
  start_le : ∀ o ∈ ops, ∀ t ∈ h.stop o, h.start o ≤ t
  tag_ne : ops.Pairwise fun o o' => h.Writes o → h.Writes o' → tag o ≠ tag o'
  read_lt : ∀ o ∈ ops, ∀ w ∈ ops, ¬h.Writes o → h.Writes w → h.Before o w → tag o < tag w
  read_le : ∀ o ∈ ops, ∀ o' ∈ ops, ¬h.Writes o → ¬h.Writes o' → h.Before o o' → tag o ≤ tag o'

section Tags

variable {v : V} {ops : List ι} {tag : ι → T}

theorem not_writes {o : ι} {x : V} (ho : h.access o = .read x) : ¬h.Writes o := by
  rintro ⟨_, hw⟩
  rw [ho] at hw
  cases hw

/-- Whatever ends up tagged, of the operations `all`, makes them regular. -/
theorem RegularTags.regular (ht : h.RegularTags v ops tag) {all : List ι} (hsub : ops ⊆ all)
    (hdone : ∀ o ∈ all, (h.stop o).isSome → o ∈ ops) : h.Regular v all := by
  intro o ho hstop x hx
  have ho' := hdone o ho hstop
  have hended : ∀ w ∈ all, ∀ w', h.Before w w' → w ∈ ops := by
    rintro w hw w' ⟨t, ht, _⟩
    exact hdone w hw (Option.isSome_iff_exists.2 ⟨t, ht⟩)
  rcases ht.read o ho' x hx with ⟨w, hw, hwx, htag, hno⟩ | ⟨rfl, hlt⟩
  · refine .inl ⟨w, hsub hw, hwx, hno, fun w' hw' hww hb => ?_⟩
    -- a write between the two would have a greater tag than the one that was read
    have hmem := hended w' hw' o hb.2
    have h₁ := ht.write_lt w hw w' hmem ⟨x, hwx⟩ hww hb.1
    have h₂ := ht.write_le w' hmem o ho' hww (not_writes hx) hb.2
    exact absurd (h₁.trans_le h₂) (htag ▸ lt_irrefl _)
  · refine .inr ⟨rfl, fun w hw hww hb => ?_⟩
    have hmem := hended w hw o hb
    exact absurd (ht.write_le w hmem o ho' hww (not_writes hx) hb) (not_le.2 (hlt w hmem hww))

/-- Where an operation stands: by its tag, a write before the reads, and these by their start. -/
def rank (h : History ι V) (tag : ι → T) (o : ι) : T ×ₗ Bool ×ₗ ℕ :=
  toLex (tag o, toLex (match h.access o with | .write _ => false | .read _ => true, h.start o))

theorem rank_lt_iff {o o' : ι} :
    h.rank tag o < h.rank tag o' ↔ tag o < tag o' ∨ tag o = tag o' ∧
      (h.Writes o ∧ ¬h.Writes o' ∨ (h.Writes o ↔ h.Writes o') ∧ h.start o < h.start o') := by
  have hcases : ∀ o, (∃ x, h.access o = .write x) ∧ h.Writes o ∨
      (∃ x, h.access o = .read x) ∧ ¬h.Writes o := by
    intro o
    cases ho : h.access o with
    | write x => exact .inl ⟨⟨x, rfl⟩, ⟨x, ho⟩⟩
    | read x => exact .inr ⟨⟨x, rfl⟩, not_writes ho⟩
  rw [rank, rank, Prod.Lex.toLex_lt_toLex, Prod.Lex.toLex_lt_toLex]
  rcases hcases o with ⟨⟨x, hx⟩, hw⟩ | ⟨⟨x, hx⟩, hw⟩ <;>
    rcases hcases o' with ⟨⟨y, hy⟩, hw'⟩ | ⟨⟨y, hy⟩, hw'⟩ <;> simp [hx, hy, hw, hw']

theorem tag_le_of_rank {o o' : ι} (hle : h.rank tag o ≤ h.rank tag o') : tag o ≤ tag o' := by
  by_contra hlt
  exact absurd hle (not_le.2 (rank_lt_iff.2 (.inl (not_le.1 hlt))))

/-- The ranks keep what is before what. -/
theorem AtomicTags.rank_lt (ht : h.AtomicTags v ops tag) {o o' : ι} (ho : o ∈ ops) (ho' : o' ∈ ops)
    (hb : h.Before o o') : h.rank tag o < h.rank tag o' := by
  have hstart : h.start o < h.start o' := by
    obtain ⟨t, hts, htt⟩ := hb
    exact (ht.start_le o ho t hts).trans_lt htt
  rw [rank_lt_iff]
  by_cases hw : h.Writes o <;> by_cases hw' : h.Writes o'
  · exact .inl (ht.write_lt o ho o' ho' hw hw' hb)
  · rcases (ht.write_le o ho o' ho' hw hw' hb).lt_or_eq with hlt | heq
    · exact .inl hlt
    · exact .inr ⟨heq, .inl ⟨hw, hw'⟩⟩
  · exact .inl (ht.read_lt o ho o' ho' hw hw' hb)
  · rcases (ht.read_le o ho o' ho' hw hw' hb).lt_or_eq with hlt | heq
    · exact .inl hlt
    · exact .inr ⟨heq, .inr ⟨iff_of_false hw hw', hstart⟩⟩

/-- In the order of the ranks, the reads are legal, from the value `v` on: what each of
    them returns is written on the way, or it is `v` and nothing is written before it. -/
theorem legal_of_sorted {l : List ι} (hl : l.Pairwise fun o o' => h.rank tag o ≤ h.rank tag o')
    (hne : l.Pairwise fun o o' => h.Writes o → h.Writes o' → tag o ≠ tag o')
    (hr : ∀ o ∈ l, ∀ x, h.access o = .read x →
      (∃ w ∈ l, h.access w = .write x ∧ tag w = tag o) ∨
      x = v ∧ ∀ w ∈ l, h.Writes w → tag o < tag w) : h.Legal v l := by
  induction l generalizing v with
  | nil => trivial
  | cons a l ih =>
    obtain ⟨ha, hl⟩ := List.pairwise_cons.1 hl
    obtain ⟨hane, hne⟩ := List.pairwise_cons.1 hne
    cases hx : h.access a with
    | write x =>
      rw [legal_write hx]
      refine ih hl hne fun o ho y hy => ?_
      rcases hr o (List.mem_cons_of_mem _ ho) y hy with ⟨w, hw, hwy, htag⟩ | ⟨rfl, hlt⟩
      · rcases List.mem_cons.1 hw with rfl | hw
        · -- the write that `o` reads: those that follow have greater tags
          obtain rfl : x = y := Access.write.inj (hx.symm.trans hwy)
          refine .inr ⟨rfl, fun w' hw' hww => ?_⟩
          rw [← htag]
          exact lt_of_le_of_ne (tag_le_of_rank (ha w' hw')) (hane w' hw' ⟨x, hx⟩ hww)
        · exact .inl ⟨w, hw, hwy, htag⟩
      · exact absurd (tag_le_of_rank (ha o ho)) (not_le.2 (hlt a List.mem_cons_self ⟨x, hx⟩))
    | read x =>
      rw [legal_read hx]
      have hnw := not_writes hx
      constructor
      · rcases hr a List.mem_cons_self x hx with ⟨w, hw, hwx, htag⟩ | ⟨rfl, _⟩
        · -- a write stands before the reads of its tag
          rcases List.mem_cons.1 hw with rfl | hw
          · exact absurd ⟨x, hwx⟩ hnw
          · exact absurd (ha w hw)
              (not_le.2 (rank_lt_iff.2 (.inr ⟨htag, .inl ⟨⟨x, hwx⟩, hnw⟩⟩)))
        · rfl
      · refine ih hl hne fun o ho y hy => ?_
        rcases hr o (List.mem_cons_of_mem _ ho) y hy with ⟨w, hw, hwy, htag⟩ | ⟨rfl, hlt⟩
        · rcases List.mem_cons.1 hw with rfl | hw
          · exact absurd ⟨y, hwy⟩ hnw
          · exact .inl ⟨w, hw, hwy, htag⟩
        · exact .inr ⟨rfl, fun w hw => hlt w (List.mem_cons_of_mem _ hw)⟩

/-- Operations that are atomic by their tags are linearizable. -/
theorem AtomicTags.linearizable (ht : h.AtomicTags v ops tag) {all : List ι}
    (hsub : ops.Sublist all) (hdone : ∀ o ∈ all, (h.stop o).isSome → o ∈ ops) :
    h.Linearizable v all := by
  set l := ops.mergeSort fun o o' => decide (h.rank tag o ≤ h.rank tag o')
  have hperm : l.Perm ops := List.mergeSort_perm ..
  have hsort : l.Pairwise fun o o' => h.rank tag o ≤ h.rank tag o' := by
    refine (List.pairwise_mergeSort (fun a b c hab hbc => ?_) (fun a b => ?_) ops).imp
      of_decide_eq_true
    · exact decide_eq_true ((of_decide_eq_true hab).trans (of_decide_eq_true hbc))
    · simpa using le_total (h.rank tag a) (h.rank tag b)
  refine ⟨l, hperm.subperm.trans hsub.subperm, fun o ho hs => hperm.mem_iff.2 (hdone o ho hs), ?_,
    legal_of_sorted hsort ?_ fun o ho x hx => ?_⟩
  · refine hsort.imp_of_mem fun {o o'} ho ho' hle hb => ?_
    exact absurd hle (not_le.2 (ht.rank_lt (hperm.mem_iff.1 ho') (hperm.mem_iff.1 ho) hb))
  · exact (hperm.symm.pairwise_iff fun hne hw hw' => (hne hw' hw).symm).1 ht.tag_ne
  · rcases ht.read o (hperm.mem_iff.1 ho) x hx with ⟨w, hw, hwx, htag, _⟩ | ⟨rfl, hlt⟩
    · exact .inl ⟨w, hperm.mem_iff.2 hw, hwx, htag⟩
    · exact .inr ⟨rfl, fun w hw => hlt w (hperm.mem_iff.1 hw)⟩

end Tags

end History

end DiscoSkip.Lib
