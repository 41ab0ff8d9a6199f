import DiscoSkip.Conn.RcExchanger

/-!
# The keys of the registry

The names of the keys that the processes set differ from each other
(`Key.name_injective`), and a process looks for a key under the name that the other one has
set it under. So each key is changed by one process only. The keys of the workers of `--ml`
have names of their own.
-/

namespace DiscoSkip.Exchange

/-- A key of the registry, by the process that sets it. -/
inductive Key
  /-- What a process announces for another one. -/
  | announce (topic : Topic) (owner proc_id : ℕ)
  | ready (topic : Topic) (owner : ℕ) (reason : Reason)
  deriving DecidableEq, Repr

namespace Key

def topic : Key → Topic
  | .announce topic _ _ | .ready topic _ _ => topic

def owner : Key → ℕ
  | .announce _ owner _ | .ready _ owner _ => owner

/-- What comes after the owner in the name. -/
def label : Key → String
  | .announce _ _ proc_id => "for-" ++ toString proc_id
  | .ready _ _ reason => RcConnectionExchanger.packedReason reason.str

def name (k : Key) : String := k.topic.str ++ "-" ++ toString k.owner ++ "-" ++ k.label

theorem announceName_eq (D : Deployment) (p : ℕ) (t : Topic) (q : ℕ) :
    (D.exchanger p t).announceName t.str q = (Key.announce t p q).name := by
  refine String.toList_inj.1 ?_
  simp [RcConnectionExchanger.announceName, name, label, Key.topic, Key.owner, Deployment.exchanger]

theorem connectName_eq (D : Deployment) (p : ℕ) (t : Topic) (q : ℕ) :
    (D.exchanger p t).connectName t.str q = (Key.announce t q p).name := by
  refine String.toList_inj.1 ?_
  simp [RcConnectionExchanger.connectName, name, label, Key.topic, Key.owner, Deployment.exchanger]

theorem readyName_eq (D : Deployment) (p : ℕ) (t : Topic) (r : Reason) :
    (D.exchanger p t).readyName t.str r.str = (Key.ready t p r).name := by
  refine String.toList_inj.1 ?_
  simp [RcConnectionExchanger.readyName, name, label, Key.topic, Key.owner, Deployment.exchanger,
    RcConnectionExchanger.packedReason]

theorem waitName_eq (D : Deployment) (p : ℕ) (t : Topic) (q : ℕ) (r : Reason) :
    (D.exchanger p t).waitName t.str q r.str = (Key.ready t q r).name := by
  refine String.toList_inj.1 ?_
  simp [RcConnectionExchanger.waitName, name, label, Key.topic, Key.owner, Deployment.exchanger]

/-! ## No two keys have the same name -/

theorem toString_injective {m n : ℕ} (h : (toString m).toList = (toString n).toList) : m = n := by
  rw [Nat.toString_eq_ofList_toDigits, Nat.toString_eq_ofList_toDigits, String.toList_ofList,
    String.toList_ofList] at h
  calc
    m = Nat.ofDigitChars 10 (Nat.toDigits 10 m) 0 := Nat.ofDigitChars_ten_toDigits.symm
    _ = Nat.ofDigitChars 10 (Nat.toDigits 10 n) 0 := by rw [h]
    _ = n := Nat.ofDigitChars_ten_toDigits

/-- There are no dashes in an id, so it ends at the first one. -/
theorem owner_label_of_eq {m n : ℕ} {cs ds : List Char}
    (h : (toString m).toList ++ '-' :: cs = (toString n).toList ++ '-' :: ds) :
    m = n ∧ cs = ds := by
  have hdash : ∀ k : ℕ, ∀ c ∈ (toString k).toList, (c != '-') = true := by
    intro k c hc
    rw [Nat.toString_eq_ofList_toDigits, String.toList_ofList] at hc
    have hdigit := Nat.isDigit_of_mem_toDigits (by decide) (by decide) hc
    rw [bne_iff_ne]
    rintro rfl
    exact absurd hdigit (by decide)
  have htake := congrArg (List.takeWhile (· != '-')) h
  rw [List.takeWhile_append_of_pos (hdash m), List.takeWhile_append_of_pos (hdash n)] at htake
  obtain rfl : m = n := toString_injective (by simpa using htake)
  exact ⟨rfl, (List.cons.inj (List.append_cancel_left h)).2⟩

theorem name_injective : Function.Injective name := by
  intro k k' h
  have hname := congrArg String.toList h
  -- the topics differ in their first character
  have htopic : k.topic = k'.topic := by
    have hhead := congrArg List.head? hname
    cases ht : k.topic <;> cases ht' : k'.topic <;> first
      | rfl
      | simp [name, ht, ht', Topic.str] at hhead
  have hrest : (toString k.owner).toList ++ '-' :: k.label.toList =
      (toString k'.owner).toList ++ '-' :: k'.label.toList := by
    simpa [name, htopic] using hname
  obtain ⟨howner, hlabel⟩ := owner_label_of_eq hrest
  cases k with
  | announce t p q =>
    cases k' with
    | announce t' p' q' =>
      obtain rfl : q = q' := toString_injective (by simpa [label] using hlabel)
      obtain rfl : t = t' := htopic
      obtain rfl : p = p' := howner
      rfl
    | ready t' p' r' => simp [label, RcConnectionExchanger.packedReason] at hlabel
  | ready t p r =>
    cases k' with
    | announce t' p' q' => simp [label, RcConnectionExchanger.packedReason] at hlabel
    | ready t' p' r' =>
      obtain rfl : t = t' := htopic
      obtain rfl : p = p' := howner
      cases r <;> cases r' <;> first
        | rfl
        | simp [label, RcConnectionExchanger.packedReason, Reason.str] at hlabel

theorem name_ne_empty (k : Key) : k.name ≠ "" := by
  intro h
  have := congrArg String.toList h
  simp [name] at this

end Key

/-! ## The keys of the workers -/

theorem workerDoneName_ne_empty (w : ℕ) : workerDoneName w ≠ "" := by
  intro h
  have := congrArg String.toList h
  simp [workerDoneName] at this

theorem workerDoneName_injective : Function.Injective workerDoneName := by
  intro w w' h
  have := congrArg String.toList h
  exact Key.toString_injective (by simpa [workerDoneName] using this)

/-- They are no keys of an exchanger. -/
theorem workerDoneName_ne (w : ℕ) (k : Key) : workerDoneName w ≠ k.name := by
  intro h
  -- they differ in their first character
  have hhead := congrArg (fun s => s.toList.head?) h
  cases ht : k.topic <;> simp [workerDoneName, Key.name, ht, Topic.str] at hhead

end DiscoSkip.Exchange
