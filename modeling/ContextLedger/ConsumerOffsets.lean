import Mathlib.Data.List.Sort
import ContextLedger.ActivityCounts

/-!
One supervised consumer of the broker's log. It fetches a batch of records from
several partitions, starting in each at its position, calls the processor for one
record after the other, and commits one past the last offset of each partition
when the batch is done. An exception anywhere ends the run, and the next run starts
at the committed offsets. What has been fetched and not yet committed is always in
the hands of the run, so a commit never passes a record that was not dealt with.
-/
namespace ContextLedger.ConsumerOffsets

open Values Events

/-- A topic and the number of its partition. -/
abbrev Partition := String × ℕ

/-- A record of the log; it may lack a value, and headers may lack theirs. -/
structure Record where
  offset : ℕ
  key : Option Bytes
  value : Option Bytes
  headers : List (String × Option Bytes)
  deriving DecidableEq

/-- `to_incoming`; there is no message where `bytes(None)` raises. -/
def toIncoming (p : Partition) (r : Record) : Option IncomingMessage := do
  let value ← r.value
  let headers ← r.headers.mapM fun header => header.2.map fun v => (header.1, v)
  return ⟨p.1, p.2, r.offset, r.key, value, headers⟩

def partitionOf (m : IncomingMessage) : Partition := (m.topic, m.partition)

/-- `next_offsets`: for each partition, one past the last processed message. -/
def nextOffsets (processed : List IncomingMessage) : Partition → Option ℕ :=
  processed.foldl (fun offsets m => Function.update offsets (partitionOf m)
    (some (max ((offsets (partitionOf m)).getD 0) (m.offset + 1)))) fun _ => none

/-- A run between two steps: between fetches, or with a batch of which some messages have
been processed, one is in a call of the processor, and some are still to do. -/
inductive Consumer where
  | stopped
  | polling
  | working (processed : List IncomingMessage) (call : Option (IncomingMessage × Phase Unit))
      (todo : List (Partition × Record))

/-- `outcomes`, `deadLetters`, `unacknowledged` and `commits` keep what the calls returned,
what the broker acknowledged for the dead-letter topics, what it keeps there without having
acknowledged it, and what the present run has committed. -/
structure World where
  log : Partition → List Record
  committed : Partition → ℕ
  positions : Partition → ℕ
  consumer : Consumer
  outcomes : List (IncomingMessage × Outcome)
  deadLetters : List OutgoingMessage
  unacknowledged : List OutgoingMessage
  commits : List (Partition → Option ℕ)

inductive Action where
  | append (p : Partition) (record : Record)
  | start
  | getmany (counts : List (Partition × ℕ))
  | take
  | applied (firstTime : Bool)
  | failed (error : AttemptError)
  | deadLettered
  | deadLetterFailed (stored : Bool)
  | finish
  | commit
  | commitFailed (stored : Bool)
  | crash

/-- The next records of a partition, at most `n`. -/
def World.fetch (w : World) (p : Partition) (n : ℕ) : List Record :=
  ((w.log p).filter fun r => w.positions p ≤ r.offset).take n

/-- One past the last of the fetched records. -/
def World.advance (w : World) (counts : List (Partition × ℕ)) (p : Partition) : ℕ :=
  ((counts.lookup p).bind fun n => ((w.fetch p n).getLast?).map fun r => r.offset + 1).getD
    (w.positions p)

def World.offsetsAfter (w : World) (processed : List IncomingMessage) (p : Partition) : ℕ :=
  (nextOffsets processed p).getD (w.committed p)

/-- The broker stores the offsets. -/
def World.store (w : World) (processed : List IncomingMessage) (consumer : Consumer) : World :=
  { w with
    committed := w.offsetsAfter processed
    consumer := consumer
    commits := w.commits ++ [nextOffsets processed] }

def maxRecords : ℕ := 100

def step (processor : EventProcessor) (w : World) : Action → Option World
  | .append p record =>
    if ∀ r ∈ w.log p, r.offset < record.offset then
      some { w with log := Function.update w.log p (w.log p ++ [record]) }
    else none
  | .start =>
    match w.consumer with
    | .stopped => some { w with consumer := .polling, positions := w.committed, commits := [] }
    | _ => none
  | .getmany counts =>
    match w.consumer with
    | .polling =>
      if (counts.map Prod.fst).Nodup ∧ (counts.map Prod.snd).sum ≤ maxRecords ∧
          ∀ c ∈ counts, c.1.1 ∈ processor.handler.topics then
        some { w with
          positions := w.advance counts
          consumer := .working [] none
            (counts.flatMap fun c => (w.fetch c.1 c.2).map fun r => (c.1, r)) }
      else none
    | _ => none
  | .take =>
    match w.consumer with
    | .working processed none ((p, r) :: todo) =>
      match toIncoming p r with
      | none => some { w with consumer := .stopped }
      | some m =>
        some { w with
          consumer := .working processed (some (m, Phase.begin processor () m)) todo }
    | _ => none
  | .applied firstTime =>
    match w.consumer with
    | .working processed (some (m, .attempting _ _ _)) todo =>
      let outcome := if firstTime then Outcome.handled else .duplicate
      some { w with consumer := .working processed (some (m, .returned outcome)) todo }
    | _ => none
  | .failed error =>
    match w.consumer with
    | .working processed (some (m, .attempting event attempt _)) todo =>
      let phase := Phase.failed processor () event attempt error
      some { w with consumer := .working processed (some (m, phase)) todo }
    | _ => none
  | .deadLettered =>
    match w.consumer with
    | .working processed (some (m, .deadLettering error attempts)) todo =>
      some { w with
        deadLetters := w.deadLetters ++ [deadLetter processor.handler m error attempts]
        consumer := .working processed (some (m, .returned .deadLettered)) todo }
    | _ => none
  | .deadLetterFailed stored =>
    match w.consumer with
    | .working _ (some (m, .deadLettering error attempts)) _ =>
      some { w with
        unacknowledged := w.unacknowledged ++
          if stored then [deadLetter processor.handler m error attempts] else []
        consumer := .stopped }
    | _ => none
  | .finish =>
    match w.consumer with
    | .working processed (some (m, .returned outcome)) todo =>
      some { w with
        outcomes := w.outcomes ++ [(m, outcome)]
        consumer := .working (processed ++ [m]) none todo }
    | _ => none
  | .commit =>
    match w.consumer with
    | .working [] none [] => some { w with consumer := .polling }
    | .working processed none [] => some (w.store processed .polling)
    | _ => none
  | .commitFailed stored =>
    match w.consumer with
    | .working processed none [] =>
      if stored then some (w.store processed .stopped) else some { w with consumer := .stopped }
    | _ => none
  | .crash => some { w with consumer := .stopped }

/-- Nothing has been consumed; the log may hold records already. -/
structure Start (w : World) : Prop where
  log : ∀ p, (w.log p).Pairwise fun r r' => r.offset < r'.offset
  committed : ∀ p, w.committed p = 0
  consumer : w.consumer = .stopped
  commits : w.commits = []

def system (processor : EventProcessor) : Transition.System World Action :=
  ⟨Start, step processor⟩

theorem toIncoming_eq_some {p : Partition} {r : Record} {m : IncomingMessage}
    (h : toIncoming p r = some m) : partitionOf m = p ∧ m.offset = r.offset := by
  unfold toIncoming at h
  obtain ⟨value, -, h⟩ := Option.bind_eq_some_iff.mp h
  obtain ⟨headers, -, h⟩ := Option.bind_eq_some_iff.mp h
  obtain rfl := Option.some.inj h
  exact ⟨rfl, rfl⟩

theorem nextOffsets_append (processed : List IncomingMessage) (m : IncomingMessage) :
    nextOffsets (processed ++ [m]) = Function.update (nextOffsets processed) (partitionOf m)
      (some (max ((nextOffsets processed (partitionOf m)).getD 0) (m.offset + 1))) := by
  simp only [nextOffsets, List.foldl_append, List.foldl_cons, List.foldl_nil]

/-- The offset for a partition is one past the largest offset of its messages. -/
theorem nextOffsets_cases (processed : List IncomingMessage) (p : Partition) :
    (nextOffsets processed p = none ∧ ∀ m ∈ processed, partitionOf m ≠ p) ∨
      ∃ m ∈ processed, partitionOf m = p ∧ nextOffsets processed p = some (m.offset + 1) ∧
        ∀ m' ∈ processed, partitionOf m' = p → m'.offset ≤ m.offset := by
  induction processed using List.reverseRecOn with
  | nil => exact Or.inl ⟨rfl, fun m hm => absurd hm List.not_mem_nil⟩
  | append_singleton processed m ih =>
    rw [nextOffsets_append]
    by_cases hp : partitionOf m = p
    · subst hp
      rw [Function.update_self]
      right
      rcases ih with ⟨hnone, hother⟩ | ⟨m₀, hm₀, hkey, hsome, hmax⟩
      · refine ⟨m, List.mem_append_right _ (List.mem_singleton_self m), rfl, by simp [hnone], ?_⟩
        intro m' hm' hkey'
        rcases List.mem_append.mp hm' with hm' | hm'
        · exact absurd hkey' (hother m' hm')
        · rw [List.mem_singleton.mp hm']
      · rw [hsome]
        rcases Nat.le_total m₀.offset m.offset with hle | hle
        · refine ⟨m, List.mem_append_right _ (List.mem_singleton_self m), rfl, ?_, ?_⟩
          · simp only [Option.getD_some, Option.some.injEq]
            omega
          · intro m' hm' hkey'
            rcases List.mem_append.mp hm' with hm' | hm'
            · exact (hmax m' hm' hkey').trans hle
            · rw [List.mem_singleton.mp hm']
        · refine ⟨m₀, List.mem_append_left _ hm₀, hkey, ?_, ?_⟩
          · simp only [Option.getD_some, Option.some.injEq]
            omega
          · intro m' hm' hkey'
            rcases List.mem_append.mp hm' with hm' | hm'
            · exact hmax m' hm' hkey'
            · rw [List.mem_singleton.mp hm']
              exact hle
    · rw [Function.update_of_ne (Ne.symm hp)]
      rcases ih with ⟨hnone, hother⟩ | ⟨m₀, hm₀, hkey, hsome, hmax⟩
      · refine Or.inl ⟨hnone, ?_⟩
        intro m' hm'
        rcases List.mem_append.mp hm' with hm' | hm'
        · exact hother m' hm'
        · rw [List.mem_singleton.mp hm']
          exact hp
      · refine Or.inr ⟨m₀, List.mem_append_left _ hm₀, hkey, hsome, ?_⟩
        intro m' hm' hkey'
        rcases List.mem_append.mp hm' with hm' | hm'
        · exact hmax m' hm' hkey'
        · rw [List.mem_singleton.mp hm'] at hkey'
          exact absurd hkey' hp

def itemOf (m : IncomingMessage) : Partition × ℕ := (partitionOf m, m.offset)

/-- What the run has fetched and not committed. -/
def items : Consumer → List (Partition × ℕ)
  | .working processed call todo =>
    processed.map itemOf ++ (call.toList.map fun c => itemOf c.1) ++
      todo.map fun x => (x.1, x.2.offset)
  | _ => []

/-- The items are the records between the committed offsets and the positions. -/
structure Held (log : Partition → List Record) (committed positions : Partition → ℕ)
    (held : List (Partition × ℕ)) : Prop where
  inLog : ∀ x ∈ held, ∃ r ∈ log x.1, r.offset = x.2
  window : ∀ p, ∀ r ∈ log p, committed p ≤ r.offset → r.offset < positions p →
    (p, r.offset) ∈ held
  ahead : ∀ x ∈ held, committed x.1 ≤ x.2 ∧ x.2 < positions x.1
  reached : ∀ p, (∃ o, (p, o) ∈ held ∧ positions p = o + 1) ∨ positions p = committed p

/-- A batch that is done takes the committed offsets to the positions. -/
theorem Held.offsetsAfter {w : World} {processed : List IncomingMessage}
    (h : Held w.log w.committed w.positions (processed.map itemOf)) (p : Partition) :
    w.offsetsAfter processed p = w.positions p := by
  unfold World.offsetsAfter
  rcases nextOffsets_cases processed p with ⟨hnone, hother⟩ | ⟨m, hm, hkey, hsome, hmax⟩
  · rw [hnone]
    rcases h.reached p with ⟨o, ho, -⟩ | heq
    · obtain ⟨m, hm, hitem⟩ := List.mem_map.mp ho
      exact absurd (congrArg Prod.fst hitem) (hother m hm)
    · exact heq.symm
  · rw [hsome]
    have hahead : w.committed p ≤ m.offset ∧ m.offset < w.positions p := by
      rw [← hkey]
      exact h.ahead (itemOf m) (List.mem_map_of_mem hm)
    simp only [Option.getD_some]
    rcases h.reached p with ⟨o, ho, heq⟩ | heq
    · obtain ⟨m', hm', hitem⟩ := List.mem_map.mp ho
      have hle := hmax m' hm' (congrArg Prod.fst hitem)
      have hoffset : m'.offset = o := congrArg Prod.snd hitem
      omega
    · omega

section Accounts

variable (handler : EventHandler)

/-- The message was dealt with, or its copy is on the dead-letter topic. -/
def Settled (outcomes : List (IncomingMessage × Outcome)) (deadLetters : List OutgoingMessage)
    (m : IncomingMessage) : Prop :=
  ((m, .handled) ∈ outcomes ∨ (m, .duplicate) ∈ outcomes ∨ (m, .ignored) ∈ outcomes) ∨
    ∃ error attempts, deadLetter handler m error attempts ∈ deadLetters

def Accounted (w : World) (p : Partition) (r : Record) : Prop :=
  ∃ m, toIncoming p r = some m ∧ Settled handler w.outcomes w.deadLetters m

def FromLog (log : Partition → List Record) (m : IncomingMessage) : Prop :=
  ∃ r ∈ log (partitionOf m), toIncoming (partitionOf m) r = some m

/-- What the run knows of the messages of its batch. -/
structure BatchOk (log : Partition → List Record) (outcomes : List (IncomingMessage × Outcome))
    (deadLetters : List OutgoingMessage) (processed : List IncomingMessage)
    (call : Option (IncomingMessage × Phase Unit)) (todo : List (Partition × Record)) : Prop where
  processed : ∀ m ∈ processed, FromLog log m ∧ Settled handler outcomes deadLetters m
  call : ∀ m phase, call = some (m, phase) → FromLog log m ∧
    (phase = .returned .deadLettered → ∃ error attempts,
      deadLetter handler m error attempts ∈ deadLetters)
  todo : ∀ x ∈ todo, x.2 ∈ log x.1

structure Good (w : World) : Prop where
  sorted : ∀ p, (w.log p).Pairwise fun r r' => r.offset < r'.offset
  bounded : ∀ p, w.committed p = 0 ∨ ∃ r ∈ w.log p, w.committed p = r.offset + 1
  accounted : ∀ p, ∀ r ∈ w.log p, r.offset < w.committed p → Accounted handler w p r
  held : w.consumer ≠ .stopped → Held w.log w.committed w.positions (items w.consumer)
  batch : ∀ processed call todo, w.consumer = .working processed call todo →
    BatchOk handler w.log w.outcomes w.deadLetters processed call todo
  commits : ∀ p, (w.commits.filterMap (· p)).Pairwise (· ≤ ·) ∧
    ∀ o ∈ w.commits.filterMap (· p), o ≤ w.committed p

end Accounts

variable {handler : EventHandler}

theorem Settled.mono {outcomes outcomes' : List (IncomingMessage × Outcome)}
    {deadLetters deadLetters' : List OutgoingMessage} {m : IncomingMessage}
    (h : Settled handler outcomes deadLetters m) (houtcomes : outcomes ⊆ outcomes')
    (hletters : deadLetters ⊆ deadLetters') : Settled handler outcomes' deadLetters' m := by
  rcases h with houtcome | ⟨error, attempts, hletter⟩
  · left
    rcases houtcome with h | h | h
    · exact Or.inl (houtcomes h)
    · exact Or.inr (Or.inl (houtcomes h))
    · exact Or.inr (Or.inr (houtcomes h))
  · exact Or.inr ⟨error, attempts, hletters hletter⟩

theorem BatchOk.mono {log : Partition → List Record}
    {outcomes outcomes' : List (IncomingMessage × Outcome)}
    {deadLetters deadLetters' : List OutgoingMessage} {processed : List IncomingMessage}
    {call : Option (IncomingMessage × Phase Unit)} {todo : List (Partition × Record)}
    (h : BatchOk handler log outcomes deadLetters processed call todo)
    (houtcomes : outcomes ⊆ outcomes') (hletters : deadLetters ⊆ deadLetters') :
    BatchOk handler log outcomes' deadLetters' processed call todo := by
  refine ⟨?_, ?_, h.todo⟩
  · intro m hm
    obtain ⟨hlog, hsettled⟩ := h.processed m hm
    exact ⟨hlog, hsettled.mono houtcomes hletters⟩
  · intro m phase hcall
    obtain ⟨hlog, hletter⟩ := h.call m phase hcall
    refine ⟨hlog, fun hphase => ?_⟩
    obtain ⟨error, attempts, hmem⟩ := hletter hphase
    exact ⟨error, attempts, hletters hmem⟩

/-- Steps within a batch: what the run holds stays the same or is given up. -/
theorem Good.within {w : World} (hw : Good handler w) {consumer : Consumer}
    {outcomes : List (IncomingMessage × Outcome)} {deadLetters : List OutgoingMessage}
    (houtcomes : w.outcomes ⊆ outcomes) (hletters : w.deadLetters ⊆ deadLetters)
    (hheld : consumer ≠ .stopped → w.consumer ≠ .stopped ∧ items consumer = items w.consumer)
    (hbatch : ∀ processed call todo, consumer = .working processed call todo →
      BatchOk handler w.log outcomes deadLetters processed call todo) :
    Good handler { w with
      consumer := consumer, outcomes := outcomes, deadLetters := deadLetters } := by
  refine ⟨hw.sorted, hw.bounded, ?_, ?_, hbatch, hw.commits⟩
  · intro p r hr hlt
    obtain ⟨m, hm, hsettled⟩ := hw.accounted p r hr hlt
    exact ⟨m, hm, hsettled.mono houtcomes hletters⟩
  · intro hrunning
    obtain ⟨hbefore, hitems⟩ := hheld hrunning
    rw [hitems]
    exact hw.held hbefore

/-- A run that ends; what the broker keeps without having acknowledged it plays no part. -/
theorem Good.stop {w : World} (hw : Good handler w) (unacknowledged : List OutgoingMessage) :
    Good handler { w with consumer := .stopped, unacknowledged := unacknowledged } := by
  have hstopped : Good handler { w with consumer := .stopped } :=
    hw.within (List.Subset.refl _) (List.Subset.refl _) (fun h => absurd rfl h)
      fun _ _ _ h => absurd h (by simp)
  exact ⟨hstopped.sorted, hstopped.bounded, hstopped.accounted, hstopped.held, hstopped.batch,
    hstopped.commits⟩

theorem record_eq {rs : List Record} (h : rs.Pairwise fun r r' => r.offset < r'.offset)
    {r r' : Record} (hr : r ∈ rs) (hr' : r' ∈ rs) (heq : r.offset = r'.offset) : r = r' := by
  have hnodup : (rs.map Record.offset).Nodup := List.pairwise_map.mpr (h.imp fun hlt => hlt.ne)
  exact List.inj_on_of_nodup_map hnodup hr hr' heq

/-- The commit of a batch that is done. -/
theorem Good.store {w : World} (hw : Good handler w) {processed : List IncomingMessage}
    (hconsumer : w.consumer = .working processed none []) {consumer : Consumer}
    (hitems : items consumer = [])
    (hbatch : ∀ processed call todo, consumer ≠ .working processed call todo) :
    Good handler (w.store processed consumer) := by
  have hheld : Held w.log w.committed w.positions (processed.map itemOf) := by
    have hheld := hw.held (by rw [hconsumer]; simp)
    rw [hconsumer] at hheld
    simpa [items] using hheld
  have hbatch₀ := hw.batch processed none [] hconsumer
  have hle : ∀ p, w.committed p ≤ w.positions p := by
    intro p
    rcases hheld.reached p with ⟨o, ho, heq⟩ | heq
    · have hahead := (hheld.ahead (p, o) ho).1
      simp only at hahead
      omega
    · exact heq.ge
  refine ⟨hw.sorted, ?_, ?_, ?_, fun _ _ _ h => absurd h (hbatch _ _ _), ?_⟩
  · intro p
    show w.offsetsAfter processed p = 0 ∨ ∃ r ∈ w.log p, w.offsetsAfter processed p = r.offset + 1
    rw [hheld.offsetsAfter]
    rcases hheld.reached p with ⟨o, ho, heq⟩ | heq
    · obtain ⟨r, hr, hoffset⟩ := hheld.inLog (p, o) ho
      exact Or.inr ⟨r, hr, by rw [heq, hoffset]⟩
    · rw [heq]
      exact hw.bounded p
  · intro p r hr hlt
    change r.offset < w.offsetsAfter processed p at hlt
    rw [hheld.offsetsAfter] at hlt
    by_cases hold : r.offset < w.committed p
    · exact hw.accounted p r hr hold
    · have hmem := hheld.window p r hr (Nat.le_of_not_lt hold) hlt
      obtain ⟨m, hm, hitem⟩ := List.mem_map.mp hmem
      obtain ⟨⟨r', hr', hincoming⟩, hsettled⟩ := hbatch₀.processed m hm
      have hkey : partitionOf m = p := congrArg Prod.fst hitem
      have hoffset : m.offset = r.offset := congrArg Prod.snd hitem
      rw [hkey] at hr' hincoming
      have heq : r' = r := record_eq (hw.sorted p) hr' hr
        ((toIncoming_eq_some hincoming).2.symm.trans hoffset)
      exact ⟨m, heq ▸ hincoming, hsettled⟩
  · intro _
    show Held w.log (w.offsetsAfter processed) w.positions (items consumer)
    rw [hitems]
    refine ⟨fun x hx => absurd hx List.not_mem_nil, ?_, fun x hx => absurd hx List.not_mem_nil, ?_⟩
    · intro p r _ hfrom hto
      rw [hheld.offsetsAfter] at hfrom
      omega
    · intro p
      exact Or.inr (hheld.offsetsAfter p).symm
  · intro p
    show ((w.commits ++ [nextOffsets processed]).filterMap (· p)).Pairwise (· ≤ ·) ∧
      ∀ o ∈ (w.commits ++ [nextOffsets processed]).filterMap (· p), o ≤ w.offsetsAfter processed p
    obtain ⟨hsorted, hbelow⟩ := hw.commits p
    have hold : ∀ o ∈ w.commits.filterMap (· p), o ≤ w.offsetsAfter processed p := by
      intro o ho
      rw [hheld.offsetsAfter]
      exact (hbelow o ho).trans (hle p)
    have hnew : ∀ o ∈ [nextOffsets processed].filterMap (· p), o = w.offsetsAfter processed p := by
      intro o ho
      obtain ⟨offsets, hoffsets, hsome⟩ := List.mem_filterMap.mp ho
      rw [List.mem_singleton.mp hoffsets] at hsome
      rw [World.offsetsAfter, hsome]
      rfl
    rw [List.filterMap_append]
    refine ⟨?_, ?_⟩
    · rw [List.pairwise_append]
      refine ⟨hsorted, ?_, fun o ho o' ho' => (hnew o' ho').symm ▸ hold o ho⟩
      cases h : nextOffsets processed p with
      | none => simp [h]
      | some o => simp [h]
    · intro o ho
      rcases List.mem_append.mp ho with ho | ho
      · exact hold o ho
      · exact (hnew o ho).le

/-- A record at the end of a partition is not yet in any window. -/
theorem Good.append {w : World} (hw : Good handler w) {p : Partition} {record : Record}
    (hlast : ∀ r ∈ w.log p, r.offset < record.offset) :
    Good handler { w with log := Function.update w.log p (w.log p ++ [record]) } := by
  have hcases : ∀ {q : Partition} {r : Record},
      r ∈ Function.update w.log p (w.log p ++ [record]) q → r ∈ w.log q ∨ q = p ∧ r = record := by
    intro q r hr
    by_cases hq : q = p
    · subst hq
      rw [Function.update_self, List.mem_append, List.mem_singleton] at hr
      exact hr.imp id fun heq => ⟨rfl, heq⟩
    · rw [Function.update_of_ne hq] at hr
      exact Or.inl hr
  have hkept : ∀ {q : Partition} {r : Record}, r ∈ w.log q →
      r ∈ Function.update w.log p (w.log p ++ [record]) q := by
    intro q r hr
    by_cases hq : q = p
    · subst hq
      rw [Function.update_self]
      exact List.mem_append_left _ hr
    · rwa [Function.update_of_ne hq]
  have hbeyond : w.committed p ≤ record.offset := by
    rcases hw.bounded p with hzero | ⟨r, hr, heq⟩
    · omega
    · have hlt := hlast r hr
      omega
  refine ⟨?_, ?_, ?_, ?_, ?_, hw.commits⟩
  · intro q
    by_cases hq : q = p
    · subst hq
      show (Function.update w.log q (w.log q ++ [record]) q).Pairwise _
      rw [Function.update_self, List.pairwise_append]
      refine ⟨hw.sorted q, List.pairwise_singleton _ _, ?_⟩
      intro r hr r' hr'
      rw [List.mem_singleton.mp hr']
      exact hlast r hr
    · show (Function.update w.log p (w.log p ++ [record]) q).Pairwise _
      rw [Function.update_of_ne hq]
      exact hw.sorted q
  · intro q
    refine (hw.bounded q).imp id ?_
    rintro ⟨r, hr, heq⟩
    exact ⟨r, hkept hr, heq⟩
  · intro q r hr hlt
    rcases hcases hr with hr | ⟨rfl, rfl⟩
    · exact hw.accounted q r hr hlt
    · exact absurd hlt (Nat.not_lt.mpr hbeyond)
  · intro hrunning
    have hheld := hw.held hrunning
    show Held (Function.update w.log p (w.log p ++ [record])) w.committed w.positions
      (items w.consumer)
    refine ⟨?_, ?_, hheld.ahead, hheld.reached⟩
    · intro x hx
      obtain ⟨r, hr, hoffset⟩ := hheld.inLog x hx
      exact ⟨r, hkept hr, hoffset⟩
    · intro q r hr hfrom hto
      rcases hcases hr with hr | ⟨rfl, rfl⟩
      · exact hheld.window q r hr hfrom hto
      · rcases hheld.reached q with ⟨o, ho, heq⟩ | heq
        · obtain ⟨r₀, hr₀, hoffset⟩ := hheld.inLog (q, o) ho
          have hlt := hlast r₀ hr₀
          simp only at hoffset
          omega
        · omega
  · intro processed call todo hconsumer
    have hbatch := hw.batch processed call todo hconsumer
    have hfrom : ∀ {m : IncomingMessage}, FromLog w.log m →
        FromLog (Function.update w.log p (w.log p ++ [record])) m :=
      fun ⟨r, hr, hincoming⟩ => ⟨r, hkept hr, hincoming⟩
    exact ⟨fun m hm => (hbatch.processed m hm).imp hfrom id,
      fun m phase hcall => (hbatch.call m phase hcall).imp hfrom id,
      fun x hx => hkept (hbatch.todo x hx)⟩

theorem Good.start {w : World} (hw : Good handler w) :
    Good handler { w with consumer := .polling, positions := w.committed, commits := [] } := by
  refine ⟨hw.sorted, hw.bounded, hw.accounted, ?_, fun _ _ _ h => absurd h (by simp), ?_⟩
  · intro _
    refine ⟨fun x hx => absurd hx List.not_mem_nil, ?_, fun x hx => absurd hx List.not_mem_nil,
      fun p => Or.inr rfl⟩
    intro p r _ hfrom hto
    exact absurd hto (Nat.not_lt.mpr hfrom)
  · intro p
    exact ⟨List.Pairwise.nil, fun o ho => absurd ho List.not_mem_nil⟩

theorem mem_fetch {w : World} {p : Partition} {n : ℕ} {r : Record} (h : r ∈ w.fetch p n) :
    r ∈ w.log p ∧ w.positions p ≤ r.offset := by
  have hfilter := List.mem_filter.mp (List.mem_of_mem_take h)
  exact ⟨hfilter.1, of_decide_eq_true hfilter.2⟩

/-- A record before the last fetched one has been fetched. -/
theorem mem_fetch_of_le {w : World} {p : Partition} {n : ℕ}
    (hsorted : (w.log p).Pairwise fun r r' => r.offset < r'.offset) {last r : Record}
    (hlast : last ∈ w.fetch p n) (hr : r ∈ w.log p) (hfrom : w.positions p ≤ r.offset)
    (hle : r.offset ≤ last.offset) : r ∈ w.fetch p n := by
  have hmem : r ∈ (w.log p).filter fun r => w.positions p ≤ r.offset :=
    List.mem_filter.mpr ⟨hr, decide_eq_true hfrom⟩
  rw [← List.take_append_drop n ((w.log p).filter _), List.mem_append] at hmem
  rcases hmem with htake | hdrop
  · exact htake
  · have hpairwise := hsorted.filter fun r => w.positions p ≤ r.offset
    rw [← List.take_append_drop n ((w.log p).filter _), List.pairwise_append] at hpairwise
    exact absurd hle (Nat.not_le.mpr (hpairwise.2.2 last hlast r hdrop))

/-- The last of the fetched records has the largest offset. -/
theorem le_last_of_mem_fetch {w : World} {p : Partition} {n : ℕ}
    (hsorted : (w.log p).Pairwise fun r r' => r.offset < r'.offset) {last r : Record}
    (hlast : (w.fetch p n).getLast? = some last) (hr : r ∈ w.fetch p n) :
    r.offset ≤ last.offset := by
  have hpairwise : (w.fetch p n).Pairwise fun r r' => r.offset < r'.offset :=
    (hsorted.filter _).sublist (List.take_sublist _ _)
  obtain ⟨before, hbefore⟩ := List.getLast?_eq_some_iff.mp hlast
  rw [hbefore, List.mem_append, List.mem_singleton] at hr
  rw [hbefore, List.pairwise_append] at hpairwise
  rcases hr with hr | rfl
  · exact (hpairwise.2.2 r hr last (List.mem_singleton_self _)).le
  · exact le_rfl

theorem lookup_eq_some_of_mem {counts : List (Partition × ℕ)} (h : (counts.map Prod.fst).Nodup)
    {p : Partition} {n : ℕ} (hmem : (p, n) ∈ counts) : counts.lookup p = some n := by
  induction counts with
  | nil => exact absurd hmem List.not_mem_nil
  | cons c counts ih =>
    obtain ⟨q, k⟩ := c
    rw [List.map_cons, List.nodup_cons] at h
    rcases List.mem_cons.mp hmem with heq | hrest
    · obtain ⟨rfl, rfl⟩ := Prod.mk.inj heq
      exact List.lookup_cons_self
    · have hne : (p == q) = false := by
        rw [beq_eq_false_iff_ne]
        rintro rfl
        exact h.1 (List.mem_map.mpr ⟨(p, n), hrest, rfl⟩)
      rw [List.lookup_cons, hne]
      exact ih h.2 hrest

theorem mem_of_lookup_eq_some {counts : List (Partition × ℕ)} {p : Partition} {n : ℕ}
    (h : counts.lookup p = some n) : (p, n) ∈ counts := by
  obtain ⟨before, after, rfl, -⟩ := List.lookup_eq_some_iff.mp h
  simp

theorem Good.getmany {w : World} (hw : Good handler w) (hpolling : w.consumer = .polling)
    {counts : List (Partition × ℕ)} (hnodup : (counts.map Prod.fst).Nodup) :
    Good handler { w with
      positions := w.advance counts
      consumer := .working [] none
        (counts.flatMap fun c => (w.fetch c.1 c.2).map fun r => (c.1, r)) } := by
  have hheld := hw.held (by rw [hpolling]; simp)
  rw [hpolling] at hheld
  have hpositions : ∀ p, w.positions p = w.committed p := by
    intro p
    rcases hheld.reached p with ⟨o, ho, -⟩ | heq
    · exact absurd ho List.not_mem_nil
    · exact heq
  have hmem : ∀ {p : Partition} {r : Record},
      (p, r) ∈ (counts.flatMap fun c => (w.fetch c.1 c.2).map fun r => (c.1, r)) ↔
        ∃ n, (p, n) ∈ counts ∧ r ∈ w.fetch p n := by
    intro p r
    simp only [List.mem_flatMap, List.mem_map, Prod.mk.injEq]
    constructor
    · rintro ⟨⟨p', n⟩, hc, r', hr', rfl, rfl⟩
      exact ⟨n, hc, hr'⟩
    · rintro ⟨n, hc, hr⟩
      exact ⟨(p, n), hc, r, hr, rfl, rfl⟩
  have hadvance : ∀ {p : Partition} {n : ℕ} {last : Record}, (p, n) ∈ counts →
      (w.fetch p n).getLast? = some last → w.advance counts p = last.offset + 1 := by
    intro p n last hc hlast
    rw [World.advance, lookup_eq_some_of_mem hnodup hc, Option.bind_some, hlast]
    rfl
  refine ⟨hw.sorted, hw.bounded, hw.accounted, ?_, ?_, hw.commits⟩
  · intro _
    show Held w.log w.committed (w.advance counts) (items (.working [] none _))
    simp only [items, List.map_nil, List.nil_append, Option.toList_none]
    refine ⟨?_, ?_, ?_, ?_⟩
    · intro x hx
      obtain ⟨⟨p, r⟩, hr, rfl⟩ := List.mem_map.mp hx
      obtain ⟨n, -, hfetch⟩ := hmem.mp hr
      exact ⟨r, (mem_fetch hfetch).1, rfl⟩
    · intro p r hr hfrom hto
      rw [← hpositions p] at hfrom
      cases hlookup : counts.lookup p with
      | none =>
        rw [World.advance, hlookup] at hto
        exact absurd hto (Nat.not_lt.mpr hfrom)
      | some n =>
        have hc := mem_of_lookup_eq_some hlookup
        cases hlast : (w.fetch p n).getLast? with
        | none =>
          rw [World.advance, hlookup, Option.bind_some, hlast] at hto
          exact absurd hto (Nat.not_lt.mpr hfrom)
        | some last =>
          rw [hadvance hc hlast] at hto
          have hfetch := mem_fetch_of_le (hw.sorted p) (List.mem_of_getLast? hlast) hr hfrom
            (Nat.le_of_lt_succ hto)
          exact List.mem_map.mpr ⟨(p, r), hmem.mpr ⟨n, hc, hfetch⟩, rfl⟩
    · intro x hx
      obtain ⟨⟨p, r⟩, hr, rfl⟩ := List.mem_map.mp hx
      obtain ⟨n, hc, hfetch⟩ := hmem.mp hr
      refine ⟨hpositions p ▸ (mem_fetch hfetch).2, ?_⟩
      cases hlast : (w.fetch p n).getLast? with
      | none =>
        rw [List.getLast?_eq_none_iff.mp hlast] at hfetch
        exact absurd hfetch List.not_mem_nil
      | some last =>
        show r.offset < w.advance counts p
        rw [hadvance hc hlast]
        exact Nat.lt_succ_of_le (le_last_of_mem_fetch (hw.sorted p) hlast hfetch)
    · intro p
      cases hlookup : counts.lookup p with
      | none =>
        right
        rw [World.advance, hlookup]
        exact hpositions p
      | some n =>
        have hc := mem_of_lookup_eq_some hlookup
        cases hlast : (w.fetch p n).getLast? with
        | none =>
          right
          rw [World.advance, hlookup, Option.bind_some, hlast]
          exact hpositions p
        | some last =>
          left
          refine ⟨last.offset, List.mem_map.mpr ⟨(p, last), ?_, rfl⟩, hadvance hc hlast⟩
          exact hmem.mpr ⟨n, hc, List.mem_of_getLast? hlast⟩
  · intro processed call todo hconsumer
    obtain ⟨rfl, rfl, rfl⟩ := Consumer.working.inj hconsumer
    refine ⟨fun m hm => absurd hm List.not_mem_nil, fun m phase hcall => absurd hcall (by simp), ?_⟩
    rintro ⟨p, r⟩ hr
    obtain ⟨n, -, hfetch⟩ := hmem.mp hr
    exact (mem_fetch hfetch).1

/-- The message in the call changes its phase. -/
theorem Good.call {w : World} (hw : Good handler w) {processed : List IncomingMessage}
    {m : IncomingMessage} {phase phase' : Phase Unit} {todo : List (Partition × Record)}
    (hconsumer : w.consumer = .working processed (some (m, phase)) todo)
    {deadLetters : List OutgoingMessage} (hletters : w.deadLetters ⊆ deadLetters)
    (hphase : phase' = .returned .deadLettered → ∃ error attempts,
      deadLetter handler m error attempts ∈ deadLetters) :
    Good handler { w with
      consumer := .working processed (some (m, phase')) todo, deadLetters := deadLetters } := by
  refine hw.within (List.Subset.refl _) hletters ?_ ?_
  · intro _
    rw [hconsumer]
    exact ⟨by simp, rfl⟩
  · intro processed' call todo' heq
    obtain ⟨rfl, rfl, rfl⟩ := Consumer.working.inj heq
    have hbatch := (hw.batch _ _ _ hconsumer).mono (List.Subset.refl w.outcomes) hletters
    refine ⟨hbatch.processed, ?_, hbatch.todo⟩
    rintro m' phase'' ⟨rfl⟩
    exact ⟨(hbatch.call m phase rfl).1, hphase⟩

/-- The next record of the batch is handed to the processor. -/
theorem Good.take {w : World} (hw : Good handler w) {processed : List IncomingMessage}
    {p : Partition} {r : Record} {todo : List (Partition × Record)}
    (hconsumer : w.consumer = .working processed none ((p, r) :: todo)) {m : IncomingMessage}
    (hm : toIncoming p r = some m) {phase : Phase Unit}
    (hphase : phase ≠ .returned .deadLettered) :
    Good handler { w with consumer := .working processed (some (m, phase)) todo } := by
  obtain ⟨hkey, hoffset⟩ := toIncoming_eq_some hm
  refine hw.within (List.Subset.refl _) (List.Subset.refl _) ?_ ?_
  · intro _
    rw [hconsumer]
    refine ⟨by simp, ?_⟩
    simp [items, itemOf, hkey, hoffset]
  · intro processed' call todo' heq
    obtain ⟨rfl, rfl, rfl⟩ := Consumer.working.inj heq
    have hbatch := hw.batch _ _ _ hconsumer
    refine ⟨hbatch.processed, ?_, fun x hx => hbatch.todo x (List.mem_cons_of_mem _ hx)⟩
    rintro m' phase' ⟨rfl⟩
    refine ⟨⟨r, ?_, ?_⟩, fun h => absurd h hphase⟩
    · rw [hkey]
      exact hbatch.todo (p, r) List.mem_cons_self
    · rw [hkey]
      exact hm

/-- The call has returned, and its message counts as processed. -/
theorem Good.finish {w : World} (hw : Good handler w) {processed : List IncomingMessage}
    {m : IncomingMessage} {outcome : Outcome} {todo : List (Partition × Record)}
    (hconsumer : w.consumer = .working processed (some (m, .returned outcome)) todo) :
    Good handler { w with
      outcomes := w.outcomes ++ [(m, outcome)]
      consumer := .working (processed ++ [m]) none todo } := by
  have hsub : w.outcomes ⊆ w.outcomes ++ [(m, outcome)] := List.subset_append_left _ _
  refine hw.within hsub (List.Subset.refl _) ?_ ?_
  · intro _
    rw [hconsumer]
    refine ⟨by simp, ?_⟩
    simp [items]
  · intro processed' call todo' heq
    obtain ⟨rfl, rfl, rfl⟩ := Consumer.working.inj heq
    have hbatch := hw.batch _ _ _ hconsumer
    have hbatch' := hbatch.mono hsub (List.Subset.refl w.deadLetters)
    refine ⟨?_, fun m' phase' hcall => absurd hcall (by simp), hbatch'.todo⟩
    intro m' hm'
    rcases List.mem_append.mp hm' with hm' | hm'
    · exact hbatch'.processed m' hm'
    · obtain rfl := List.mem_singleton.mp hm'
      obtain ⟨hlog, hletter⟩ := hbatch.call m' _ rfl
      refine ⟨hlog, ?_⟩
      cases outcome with
      | handled => exact Or.inl (Or.inl (by simp))
      | duplicate => exact Or.inl (Or.inr (Or.inl (by simp)))
      | ignored => exact Or.inl (Or.inr (Or.inr (by simp)))
      | deadLettered => exact Or.inr (hletter rfl)

theorem begin_ne_deadLettered (processor : EventProcessor) (m : IncomingMessage) :
    Phase.begin processor () m ≠ .returned .deadLettered := by
  unfold Phase.begin
  split
  · simp
  · split
    · simp
    · split <;> simp

theorem failed_ne_returned (processor : EventProcessor) (event : EventEnvelope) (attempt : ℕ)
    (error : AttemptError) (outcome : Outcome) :
    Phase.failed processor () event attempt error ≠ .returned outcome := by
  cases error with
  | permanent message => simp [Phase.failed]
  | transient text =>
    rw [Phase.failed]
    split <;> simp

theorem good_step {processor : EventProcessor} {w w' : World} {a : Action}
    (hw : Good processor.handler w) (h : step processor w a = some w') :
    Good processor.handler w' := by
  cases a with
  | append p record =>
    obtain ⟨hlast, h⟩ := Option.ite_none_right_eq_some.mp h
    obtain rfl := Option.some.inj h
    exact hw.append hlast
  | start =>
    simp only [step] at h
    split at h
    · obtain rfl := Option.some.inj h
      exact hw.start
    · exact absurd h (by simp)
  | getmany counts =>
    simp only [step] at h
    split at h
    · rename_i hpolling
      obtain ⟨hcounts, h⟩ := Option.ite_none_right_eq_some.mp h
      obtain rfl := Option.some.inj h
      exact hw.getmany hpolling hcounts.1
    · exact absurd h (by simp)
  | take =>
    simp only [step] at h
    split at h
    · rename_i hconsumer
      split at h
      · obtain rfl := Option.some.inj h
        exact hw.stop _
      · rename_i m hm
        obtain rfl := Option.some.inj h
        exact hw.take hconsumer hm (begin_ne_deadLettered processor m)
    · exact absurd h (by simp)
  | applied firstTime =>
    simp only [step] at h
    split at h
    · rename_i hconsumer
      obtain rfl := Option.some.inj h
      refine hw.call hconsumer (List.Subset.refl _) fun hphase => absurd hphase ?_
      cases firstTime <;> simp
    · exact absurd h (by simp)
  | failed error =>
    simp only [step] at h
    split at h
    · rename_i hconsumer
      obtain rfl := Option.some.inj h
      exact hw.call hconsumer (List.Subset.refl _) fun hphase =>
        absurd hphase (failed_ne_returned processor _ _ _ _)
    · exact absurd h (by simp)
  | deadLettered =>
    simp only [step] at h
    split at h
    · rename_i processed m error attempts todo hconsumer
      obtain rfl := Option.some.inj h
      refine hw.call hconsumer (List.subset_append_left _ _) fun _ => ?_
      exact ⟨error, attempts, List.mem_append_right _ (List.mem_singleton_self _)⟩
    · exact absurd h (by simp)
  | deadLetterFailed stored =>
    simp only [step] at h
    split at h
    · obtain rfl := Option.some.inj h
      exact hw.stop _
    · exact absurd h (by simp)
  | finish =>
    simp only [step] at h
    split at h
    · rename_i hconsumer
      obtain rfl := Option.some.inj h
      exact hw.finish hconsumer
    · exact absurd h (by simp)
  | commit =>
    simp only [step] at h
    split at h
    · rename_i hconsumer
      obtain rfl := Option.some.inj h
      refine hw.within (List.Subset.refl _) (List.Subset.refl _) ?_ fun _ _ _ h => absurd h (by simp)
      intro _
      rw [hconsumer]
      exact ⟨by simp, rfl⟩
    · rename_i processed _ hconsumer
      obtain rfl := Option.some.inj h
      exact hw.store hconsumer rfl (by simp)
    · exact absurd h (by simp)
  | commitFailed stored =>
    simp only [step] at h
    split at h
    · rename_i hconsumer
      split at h
      · obtain rfl := Option.some.inj h
        exact hw.store hconsumer rfl (by simp)
      · obtain rfl := Option.some.inj h
        exact hw.stop _
    · exact absurd h (by simp)
  | crash =>
    obtain rfl := Option.some.inj h
    exact hw.stop _

theorem good_start {w : World} (h : Start w) : Good handler w := by
  refine ⟨h.log, fun p => Or.inl (h.committed p), ?_, ?_, ?_, ?_⟩
  · intro p r _ hlt
    rw [h.committed p] at hlt
    exact absurd hlt (Nat.not_lt_zero _)
  · intro hrunning
    exact absurd h.consumer hrunning
  · intro processed call todo hconsumer
    rw [h.consumer] at hconsumer
    exact absurd hconsumer (by simp)
  · rw [h.commits]
    exact fun p => ⟨List.Pairwise.nil, fun o ho => absurd ho List.not_mem_nil⟩

/-- Every record before a committed offset has been processed, or its copy is on the
dead-letter topic; and the offsets that a run commits for a partition never decrease. -/
theorem no_record_skipped (processor : EventProcessor) (w : World)
    (hw : (system processor).Reachable w) :
    (∀ p, ∀ r ∈ w.log p, r.offset < w.committed p → Accounted processor.handler w p r) ∧
    ∀ p, (w.commits.filterMap (· p)).Pairwise (· ≤ ·) := by
  have hgood : Good processor.handler w := (system processor).reachable_invariant _
    (fun _ => good_start) (fun _ _ _ hs hstep => good_step hs hstep) hw
  exact ⟨hgood.accounted, fun p => (hgood.commits p).1⟩

def exampleProcessor : EventProcessor := ActivityCounts.projector exampleCodec 3

def exampleRecord (offset : ℕ) : Record := ⟨offset, none, some (encode exampleText), []⟩

/-- Two records in one partition, the same event twice. -/
def exampleStart : World where
  log := fun p => if p = (evidenceTopic, 0) then [exampleRecord 0, exampleRecord 1] else []
  committed := fun _ => 0
  positions := fun _ => 0
  consumer := .stopped
  outcomes := []
  deadLetters := []
  unacknowledged := []
  commits := []

theorem exampleStart_start : Start exampleStart := by
  refine ⟨?_, fun _ => rfl, rfl, rfl⟩
  intro p
  by_cases hp : p = (evidenceTopic, 0)
  · simp [exampleStart, hp, exampleRecord]
  · simp [exampleStart, hp]

/-- The first record is handled; every attempt at the second fails. -/
def exampleTrace : List Action :=
  [.start, .getmany [((evidenceTopic, 0), 2)]] ++ [.take] ++ [.applied true, .finish] ++ [.take] ++
    [.failed (.transient "timeout"), .failed (.transient "timeout"), .failed (.transient "timeout"),
     .deadLettered, .finish, .commit]

def exampleMessage (offset : ℕ) : IncomingMessage :=
  ⟨evidenceTopic, 0, offset, none, encode exampleText, []⟩

/-- The run between two of its segments. -/
def exampleWorking (processed : List IncomingMessage)
    (call : Option (IncomingMessage × Phase Unit)) (todo : List (Partition × Record))
    (outcomes : List (IncomingMessage × Outcome)) : World :=
  { exampleStart with
    positions := exampleStart.advance [((evidenceTopic, 0), 2)]
    consumer := .working processed call todo
    outcomes := outcomes }

theorem exampleWorking_take (processed : List IncomingMessage) (offset : ℕ)
    (todo : List (Partition × Record)) (outcomes : List (IncomingMessage × Outcome)) :
    (system exampleProcessor).run (exampleWorking processed none
      (((evidenceTopic, 0), exampleRecord offset) :: todo) outcomes) [.take] =
    some (exampleWorking processed
      (some (exampleMessage offset, .attempting exampleEvent 1 ())) todo outcomes) := by
  have hbegin : Phase.begin exampleProcessor () (exampleMessage offset) =
      .attempting exampleEvent 1 () := by
    simp only [Phase.begin, exampleProcessor, ActivityCounts.projector, exampleMessage,
      decode_exampleText]
    rfl
  show some (exampleWorking processed
    (some (exampleMessage offset, Phase.begin exampleProcessor () (exampleMessage offset))) todo
    outcomes) = _
  rw [hbegin]

theorem no_record_skipped_example : ∃ w, (system exampleProcessor).Reachable w ∧
    w.committed (evidenceTopic, 0) = 2 ∧
    (∀ p, ∀ r ∈ w.log p, r.offset < w.committed p → Accounted exampleProcessor.handler w p r) ∧
    ∀ p, (w.commits.filterMap (· p)).Pairwise (· ≤ ·) := by
  have hrun : ∃ w, (system exampleProcessor).run exampleStart exampleTrace = some w ∧
      w.committed (evidenceTopic, 0) = 2 := by
    have hfetched : (system exampleProcessor).run exampleStart
        [.start, .getmany [((evidenceTopic, 0), 2)]] = some (exampleWorking [] none
          [((evidenceTopic, 0), exampleRecord 0), ((evidenceTopic, 0), exampleRecord 1)] []) := rfl
    have hhandled : (system exampleProcessor).run (exampleWorking []
        (some (exampleMessage 0, .attempting exampleEvent 1 ()))
        [((evidenceTopic, 0), exampleRecord 1)] []) [.applied true, .finish] =
        some (exampleWorking [exampleMessage 0] none [((evidenceTopic, 0), exampleRecord 1)]
          [(exampleMessage 0, .handled)]) := rfl
    rw [exampleTrace, Transition.System.run_append, Transition.System.run_append,
      Transition.System.run_append, Transition.System.run_append, hfetched, Option.bind_some,
      exampleWorking_take, Option.bind_some, hhandled, Option.bind_some, exampleWorking_take,
      Option.bind_some]
    exact ⟨_, rfl, rfl⟩
  obtain ⟨w, hrun, hcommitted⟩ := hrun
  have hw : (system exampleProcessor).Reachable w :=
    ⟨exampleStart, exampleTrace, exampleStart_start, hrun⟩
  exact ⟨w, hw, hcommitted, no_record_skipped exampleProcessor w hw⟩

end ContextLedger.ConsumerOffsets
