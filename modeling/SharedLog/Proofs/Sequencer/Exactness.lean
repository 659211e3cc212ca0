import SharedLog.Proofs.Sequencer.Thread

/-!
Walks are exact. The history of a stream on a sequencer is what the log held on the stream when the sequencer was
rebuilt and what has been granted on it since. Every grant and every trim keeps the links threaded through this
history, so each walk lists the history of its window down to a cut, and says rightly whether there was one.
-/

namespace SharedLog

namespace Sequencer

variable {s : Sequencer} {x : StreamId} {H : Address → Prop}

/-- The addresses a call has granted on a stream. -/
def grants (s : Sequencer) (x : StreamId) : Change → List Address
  | .token fence request =>
    match (s.requestToken fence request).1 with
    | .ok (.issued token) => if x ∈ request.streams then token.range.toList else []
    | _ => []
  | .trim .. => []

/-- The addresses that calls made one after the other have granted on a stream. -/
def grantsAll (s : Sequencer) (x : StreamId) : List Change → List Address
  | [] => []
  | c :: cs => s.grants x c ++ (s.change c).grantsAll x cs

/-- The history of a stream with what is granted on it. -/
def Since (H : Address → Prop) (as : List Address) (a : Address) : Prop := H a ∨ a ∈ as

theorem since_nil : Since H [] = H := funext fun a => by simp [Since]

theorem since_append (as bs : List Address) : Since H (as ++ bs) = Since (Since H as) bs :=
  funext fun a => by simp [Since, or_assoc]

/-- A call grants a range, trims, or changes nothing. -/
theorem change_cases (s : Sequencer) (x : StreamId) (H : Address → Prop) (c : Change) :
    (∃ count r xs, s.nextRange count = .ok r ∧ s.change c = (s.issue r (SortedSet.toList xs)).2 ∧
      Since H (s.grants x c) = Granted H x xs r) ∨
    Since H (s.grants x c) = H ∧ (s.change c = s ∨ ∃ f a, s.change c = (s.trim f a).2) := by
  cases c with
  | token f req =>
    rcases requestToken_cases s f req with ⟨r, -, -, hr, heq⟩ | ⟨hnone, heq⟩
    · refine Or.inl ⟨req.count, r, req.streams, hr, congrArg Prod.snd heq, ?_⟩
      rw [grants, heq, Granted]
      simp only [range_token_issue]
      split
      · rfl
      · exact since_nil
    · refine Or.inr ⟨?_, Or.inl heq⟩
      rw [grants]
      split
      next token htoken => exact absurd htoken (hnone token)
      next => exact since_nil
  | trim f a => exact Or.inr ⟨since_nil, Or.inr ⟨f, a, rfl⟩⟩

@[simp] theorem epoch_change (s : Sequencer) (c : Change) : (s.change c).epoch = s.epoch := by
  rcases change_cases s default (fun _ => True) c with ⟨count, r, xs, -, heq, -⟩ | ⟨-, heq | ⟨f, a, heq⟩⟩
  · rw [heq, epoch_issue]
  · rw [heq]
  · rw [heq, epoch_trim]

@[simp] theorem epoch_changeAll (s : Sequencer) (cs : List Change) : (s.changeAll cs).epoch = s.epoch := by
  induction cs generalizing s with
  | nil => rfl
  | cons c cs ih => exact (ih (s.change c)).trans (epoch_change s c)

theorem Threaded.change (h : s.Threaded x H) (hs : s.Stacked) (c : Change) :
    (s.change c).Threaded x (Since H (s.grants x c)) := by
  rcases change_cases s x H c with ⟨count, r, xs, hr, heq, hsince⟩ | ⟨hsince, heq | ⟨f, a, heq⟩⟩
  · rw [heq, hsince]
    exact h.issue hs hr xs
  · rwa [heq, hsince]
  · rw [heq, hsince]
    exact h.trim f a

theorem Anchored.change (h : s.Anchored x H) (hx : s.tails.stream x ≤ s.tails.global) (c : Change) :
    (s.change c).Anchored x (Since H (s.grants x c)) := by
  rcases change_cases s x H c with ⟨count, r, xs, hr, heq, hsince⟩ | ⟨hsince, heq | ⟨f, a, heq⟩⟩
  · rw [heq, hsince]
    exact h.issue hx hr xs
  · rwa [heq, hsince]
  · rw [heq, hsince]
    exact h.trim f a

theorem Threaded.changeAll (h : s.Threaded x H) (hs : s.Stacked) (cs : List Change) :
    (s.changeAll cs).Threaded x (Since H (s.grantsAll x cs)) := by
  induction cs generalizing s H with
  | nil => exact since_nil.symm ▸ h
  | cons c cs ih =>
    rw [grantsAll, since_append]
    exact ih (h.change hs c) (hs.change c)

theorem Anchored.changeAll {K : Address → Prop} (h : s.Anchored x K) (ht : s.Threaded x H) (hs : s.Stacked)
    (cs : List Change) : (s.changeAll cs).Anchored x (Since K (s.grantsAll x cs)) := by
  induction cs generalizing s H K with
  | nil => exact since_nil.symm ▸ h
  | cons c cs ih =>
    rw [grantsAll, since_append]
    exact ih (h.change ht.tail_le c) (ht.change hs c) (hs.change c)

/-- The addresses of a log on a stream. -/
def found (l : List LogEntry) (x : StreamId) : List Address :=
  (l.filter fun e => decide (x ∈ e.streams)).map LogEntry.address

theorem mem_found {l : List LogEntry} {a : Address} : a ∈ found l x ↔ Found l x a := by
  simp only [found, Found, List.mem_map, List.mem_filter, decide_eq_true_eq]
  exact ⟨fun ⟨e, ⟨he, hx⟩, ha⟩ => ⟨e, he, ha, hx⟩, fun ⟨e, he, ha, hx⟩ => ⟨e, ⟨he, hx⟩, ha⟩⟩

/-- Walks are exact. On a sequencer rebuilt from a log in which no checkpoint starts above its own address, whatever
has been granted and trimmed since, a walk lists, newest first, the addresses of its window that were found on the
stream or have been granted on it: all of them if it is complete, those from some cut inside the window on if it is
not. Without checkpoints, it is cut off exactly if one of these addresses has been trimmed. -/
theorem walk_exact (writes : List LogUnit.Change) (epoch : Epoch) (calls : List Change) (x : StreamId)
    (start stop : Address)
    (hstart : ∀ e ∈ (LogUnit.empty.changeAll writes).entries, ∀ c ∈ e.checkpoint, c.start ≤ e.address) :
    let u := LogUnit.empty.changeAll writes
    let rebuilt := bootstrap epoch u.replay
    let s := rebuilt.changeAll calls
    let history := found u.entries x ++ rebuilt.grantsAll x calls
    ∃ r, s.walk ⟨epoch⟩ x start stop = some (.ok r) ∧ r.addresses.Pairwise (· > ·) ∧
      (r.complete = true → ∀ a, a ∈ r.addresses ↔ a ∈ history ∧ start ≤ a ∧ a ≤ stop) ∧
      (r.complete = false →
        ∃ cut : Int, start.toInt < cut ∧ ∀ a, a ∈ r.addresses ↔ a ∈ history ∧ cut ≤ a.toInt ∧ a ≤ stop) ∧
      ((∀ e ∈ u.entries, e.checkpoint = none) →
        (r.complete = false ↔ ∃ a ∈ history, start ≤ a ∧ a < s.trimMark)) := by
  intro u rebuilt s history
  have hu : Logged u.entries := LogUnit.logged_changeAll writes
  have hcovered : u.Covered := fun e he c hc => ⟨e, he, hstart e he c hc⟩
  have hstacked : rebuilt.Stacked := stacked_bootstrap hu
  have hgrounded : rebuilt.Grounded := grounded_bootstrap hu hcovered epoch
  have hthread : rebuilt.Threaded x (Found u.entries x) := threaded_bootstrap hu (hgrounded.tail_le x)
  have hthreads := hthread.changeAll hstacked calls
  have hstacks : s.Stacked := hstacked.changeAll calls
  have hmem (a : Address) : a ∈ history ↔ Since (Found u.entries x) (rebuilt.grantsAll x calls) a := by
    rw [List.mem_append, mem_found, Since]
  obtain ⟨r, hr⟩ : ∃ r, s.walk ⟨epoch⟩ x start stop = some (.ok r) := by
    have hepoch : s.epoch = epoch := (epoch_changeAll ..).trans (epoch_bootstrap ..)
    exact hepoch ▸ hthreads.exists_walk start stop
  obtain ⟨cut, hlists, hcomplete, hincomplete⟩ := hthreads.exists_lists hstacks hr
  have hlist (a : Address) : a ∈ r.addresses ↔ a ∈ history ∧ cut ≤ a.toInt ∧ a ≤ stop := by
    rw [hlists.mem_iff, hmem]
    constructor
    · rintro ⟨ha, hcut, -, hstop⟩
      exact ⟨ha, hcut, hstop⟩
    · rintro ⟨ha, hcut, hstop⟩
      exact ⟨ha, hcut, hthreads.le_tail a ha, hstop⟩
  refine ⟨r, hr, hlists.descending, ?_, fun h => ⟨cut, hincomplete h, hlist⟩, ?_⟩
  · intro h a
    rw [hlist, hcomplete h]
    exact Iff.rfl
  · intro hplain
    have hanchors := (anchored_bootstrap hu hplain).changeAll hthread hstacked calls
    rw [hthreads.incomplete_iff hanchors hstacks hr]
    simp only [hmem]
    exact Iff.rfl

/-- A tail that only a checkpoint knows of cuts the walk off: the entry below it is not listed. -/
theorem walk_exact_above_checkpoint :
    let own := StreamId.mk 0 1
    let x := StreamId.mk 0 2
    let two := Address.zero.next.next
    let writes : List LogUnit.Change :=
      [.write (.onStreams .zero [x]), .write (.checkpointing Address.zero.next own x Address.zero.next)]
    let u := LogUnit.empty.changeAll writes
    let s := (bootstrap 2 u.replay).changeAll [.token ⟨2⟩ (.single [x])]
    (∀ e ∈ u.entries, ∀ c ∈ e.checkpoint, c.start ≤ e.address) ∧
      s.walk ⟨2⟩ x .zero two = some (.ok ⟨[two], false⟩) ∧
      ∃ cut : Int, 0 < cut ∧ ∀ a, a ∈ [two] ↔ a ∈ [.zero, two] ∧ cut ≤ a.toInt ∧ a ≤ two := by
  intro own x two writes u s
  have hstart : ∀ e ∈ u.entries, ∀ c ∈ e.checkpoint, c.start ≤ e.address := by decide +kernel
  have hwalk : s.walk ⟨2⟩ x .zero two = some (.ok ⟨[two], false⟩) := by decide +kernel
  have hhistory :
      found u.entries x ++ (bootstrap 2 u.replay).grantsAll x [.token ⟨2⟩ (.single [x])] = [.zero, two] := by
    decide +kernel
  obtain ⟨r, hr, -, -, hcut, -⟩ := walk_exact writes 2 [.token ⟨2⟩ (.single [x])] x .zero two hstart
  obtain rfl : ⟨[two], false⟩ = r := Except.ok.inj (Option.some.inj (hwalk.symm.trans hr))
  exact ⟨hstart, hwalk, hhistory ▸ hcut rfl⟩

end Sequencer

end SharedLog
