import SlurmSim.Controller.GangRows

/-!
# Runs of the gang scheduler

After every job start, job end and pass of the timeslicer the running jobs of a
partition are apart and the shadow arrays are exact, as long as no pass skips a
partition whose shadows were exchanged for others of the same number.
-/

namespace SlurmSim.Controller.Gang

open SlurmSim.Common List
open Function (update)
open Option (map_eq_some_iff map_some some.inj)

variable {g : Config} {jobs : Nat → JobInfo}

/-! ## Shadow arrays -/

/-- The ids of the jobs of all partitions. -/
def trackedIds (parts : List GsPart) : List Nat :=
  parts.flatMap fun p => p.jobList.map GsJob.jobId

theorem trackedIds_cons (p : GsPart) (rest : List GsPart) :
    trackedIds (p :: rest) = p.jobList.map GsJob.jobId ++ trackedIds rest :=
  flatMap_cons

theorem mem_trackedIds {parts : List GsPart} {id : Nat} :
    id ∈ trackedIds parts ↔ ∃ p ∈ parts, ∃ job ∈ p.jobList, job.jobId = id := by
  simp [trackedIds, mem_flatMap, mem_map]

/-- No job is tracked twice, the suspended jobs are those out of a row, and every
shadow array holds the running jobs of the partitions of higher priority. -/
structure Shadowed (parts : List GsPart) : Prop where
  distinct : (trackedIds parts).Nodup
  consistent : ∀ p ∈ parts, ∀ job ∈ p.jobList, Consistent job
  nodup : ∀ q ∈ parts, q.shadow.Nodup
  known : ∀ q ∈ parts, ∀ id ∈ q.shadow, id ∈ trackedIds parts
  cast_iff : ∀ q ∈ parts, ∀ p ∈ parts, ∀ job ∈ p.jobList,
    (job.jobId ∈ q.shadow ↔ q.priority < p.priority ∧ job.sigState = .resume)

namespace Shadowed

variable {p new : GsPart} {parts rest : List GsPart} {calls : List ShadowCall}

theorem perm {others : List GsPart} (same : parts.Perm others) (inv : Shadowed parts) :
    Shadowed others := by
  have sameIds : (trackedIds parts).Perm (trackedIds others) := same.flatMap_right _
  refine ⟨sameIds.nodup_iff.mp inv.distinct, ?_, ?_, ?_, ?_⟩
  · exact fun p mem => inv.consistent p (same.mem_iff.mpr mem)
  · exact fun q mem => inv.nodup q (same.mem_iff.mpr mem)
  · exact fun q mem id shadowed => sameIds.mem_iff.mp
      (inv.known q (same.mem_iff.mpr mem) id shadowed)
  · exact fun q inQ p inP => inv.cast_iff q (same.mem_iff.mpr inQ) p (same.mem_iff.mpr inP)

theorem apart_rest (inv : Shadowed (p :: rest)) {id : Nat}
    (mem : id ∈ p.jobList.map GsJob.jobId) : id ∉ trackedIds rest := by
  have distinct := inv.distinct
  rw [trackedIds_cons, nodup_append] at distinct
  exact fun inRest => distinct.2.2 id mem id inRest rfl

theorem not_shadowed (inv : Shadowed (p :: rest)) {q : GsPart} (mem : q ∈ p :: rest)
    (notLower : p.priority ≤ q.priority) {id : Nat} (shadowed : id ∈ q.shadow) :
    id ∈ trackedIds rest := by
  have known := inv.known q mem id shadowed
  rw [trackedIds_cons, mem_append] at known
  rcases known with inP | inRest
  · obtain ⟨job, inList, rfl⟩ := mem_map.mp inP
    have lower := ((inv.cast_iff q mem p mem_cons_self job inList).mp shadowed).1
    exact absurd lower (Nat.not_lt.mpr notLower)
  · exact inRest

theorem unaffected (inv : Shadowed (p :: rest)) (outside : ∀ call ∈ calls, call.job ∉ trackedIds rest)
    {q : GsPart} (mem : q ∈ p :: rest) (notLower : p.priority ≤ q.priority) :
    calls.foldl (ShadowCall.apply p.priority q.priority) q.shadow = q.shadow :=
  foldl_apply_of_le notLower fun call called shadowed =>
    outside call called (inv.not_shadowed mem notLower shadowed)

theorem exchange (inv : Shadowed (p :: rest)) (priority : new.priority = p.priority)
    (shadow : new.shadow = p.shadow) (distinct : (trackedIds (new :: rest)).Nodup)
    (consistent : ∀ job ∈ new.jobList, Consistent job)
    (outside : ∀ call ∈ calls, call.job ∉ trackedIds rest)
    (member : ∀ shadow : List Nat, shadow.Nodup → (∀ id ∈ shadow, id ∈ trackedIds (p :: rest)) →
      (∀ job ∈ p.jobList, (job.jobId ∈ shadow ↔ job.sigState = .resume)) →
      (∀ job ∈ new.jobList, (job.jobId ∈ lowerShadow calls shadow ↔ job.sigState = .resume)) ∧
      ∀ id ∈ lowerShadow calls shadow, id ∈ trackedIds (new :: rest)) :
    Shadowed ((new :: rest).map (applyShadows p.priority calls)) := by
  have sameIds : trackedIds ((new :: rest).map (applyShadows p.priority calls)) =
      trackedIds (new :: rest) := by
    rw [trackedIds, trackedIds, flatMap_map]
    rfl
  have arrays : ∀ q ∈ p :: rest, ∀ after,
      after = calls.foldl (ShadowCall.apply p.priority q.priority) q.shadow →
      after.Nodup ∧ (∀ id ∈ after, id ∈ trackedIds (new :: rest)) ∧
      (∀ job ∈ new.jobList, (job.jobId ∈ after ↔ q.priority < p.priority ∧ job.sigState = .resume)) ∧
      ∀ r ∈ rest, ∀ job ∈ r.jobList,
        (job.jobId ∈ after ↔ q.priority < r.priority ∧ job.sigState = .resume) := by
    rintro q mem after rfl
    by_cases lower : q.priority < p.priority
    · rw [foldl_apply_of_lt lower]
      have result := member q.shadow (inv.nodup q mem) (inv.known q mem) fun job inList => by
        rw [inv.cast_iff q mem p mem_cons_self job inList]
        exact and_iff_right lower
      refine ⟨nodup_lowerShadow calls (inv.nodup q mem), result.2, ?_, ?_⟩
      · intro job inList
        rw [result.1 job inList]
        exact (and_iff_right lower).symm
      · intro r inRest job inList
        rw [mem_lowerShadow_of_other]
        · exact inv.cast_iff q mem r (mem_cons_of_mem _ inRest) job inList
        · rintro call called same
          exact outside call called (mem_trackedIds.mpr ⟨r, inRest, job, inList, same.symm⟩)
    · have notLower := Nat.not_lt.mp lower
      rw [inv.unaffected outside mem notLower]
      refine ⟨inv.nodup q mem, ?_, ?_, ?_⟩
      · intro id shadowed
        exact mem_append_right _ (inv.not_shadowed mem notLower shadowed)
      · intro job inList
        refine ⟨fun shadowed => ?_, fun both => absurd both.1 lower⟩
        rw [trackedIds_cons, nodup_append] at distinct
        exact absurd rfl (distinct.2.2 job.jobId (mem_map_of_mem inList) job.jobId
          (inv.not_shadowed mem notLower shadowed))
      · exact fun r inRest => inv.cast_iff q mem r (mem_cons_of_mem _ inRest)
  have origin : ∀ q ∈ (new :: rest).map (applyShadows p.priority calls), ∃ old ∈ p :: rest,
      q.priority = old.priority ∧
      q.shadow = calls.foldl (ShadowCall.apply p.priority old.priority) old.shadow := by
    intro q mem
    obtain ⟨old, inOld, rfl⟩ := mem_map.mp mem
    rcases mem_cons.mp inOld with rfl | inRest
    · refine ⟨p, mem_cons_self, priority, ?_⟩
      rw [applyShadows, shadow, priority]
    · exact ⟨old, mem_cons_of_mem _ inRest, rfl, rfl⟩
  refine ⟨sameIds ▸ distinct, ?_, ?_, ?_, ?_⟩
  · intro q mem
    obtain ⟨old, inOld, rfl⟩ := mem_map.mp mem
    rcases mem_cons.mp inOld with rfl | inRest
    · exact consistent
    · exact inv.consistent old (mem_cons_of_mem _ inRest)
  · intro q mem
    obtain ⟨old, inOld, -, after⟩ := origin q mem
    exact (arrays old inOld _ after).1
  · intro q mem
    obtain ⟨old, inOld, -, after⟩ := origin q mem
    rw [sameIds]
    exact (arrays old inOld _ after).2.1
  · intro q mem r inResult job inList
    obtain ⟨old, inOld, samePriority, after⟩ := origin q mem
    obtain ⟨-, -, ofNew, ofRest⟩ := arrays old inOld _ after
    obtain ⟨oldR, inOldR, rfl⟩ := mem_map.mp inResult
    rw [samePriority]
    rcases mem_cons.mp inOldR with rfl | inRest
    · rw [ofNew job inList, ← priority]
      rfl
    · exact ofRest oldR inRest job inList

theorem rebuilt {result : GsPart × List ShadowCall} (inv : Shadowed (p :: rest))
    (rebuilt : Rebuilt p result) :
    Shadowed ((result.1 :: rest).map (applyShadows p.priority result.2)) := by
  have ids : (trackedIds (result.1 :: rest)).Perm (trackedIds (p :: rest)) := by
    exact rebuilt.sameIds.append_right _
  refine inv.exchange rebuilt.priority rebuilt.shadow (ids.nodup_iff.mpr inv.distinct)
    rebuilt.consistent (fun call called => inv.apart_rest (rebuilt.tracks.only call called)) ?_
  intro shadow nodup known member
  refine ⟨rebuilt.tracks.member shadow nodup member, ?_⟩
  intro id shadowed
  rw [ids.mem_iff]
  by_cases called : ∃ call ∈ result.2, call.job = id
  · obtain ⟨call, inCalls, rfl⟩ := called
    exact mem_append_left _ (rebuilt.tracks.only call inCalls)
  · rw [mem_lowerShadow_of_other fun call inCalls same => called ⟨call, inCalls, same⟩] at shadowed
    exact known id shadowed

end Shadowed

/-! ## Turns -/

section Turn

variable {rebuild : GsPart → GsPart × List ShadowCall} {parts : List GsPart} {p : GsPart} {i : Nat}

theorem perm_cons_eraseIdx (here : parts[i]? = some p) : parts.Perm (p :: parts.eraseIdx i) := by
  obtain ⟨mem, rfl⟩ := List.getElem?_eq_some_iff.mp here
  exact (List.getElem_cons_eraseIdx_perm mem).symm

theorem set_perm (here : parts[i]? = some p) (new : GsPart) :
    (parts.set i new).Perm (new :: parts.eraseIdx i) := by
  obtain ⟨mem, -⟩ := List.getElem?_eq_some_iff.mp here
  exact List.set_perm_cons_eraseIdx mem new

theorem turn_of_some (here : parts[i]? = some p) : turn rebuild parts i =
    (parts.set i (rebuild p).1).map (applyShadows p.priority (rebuild p).2) := by
  rw [turn, here]

theorem Shadowed.turn (inv : Shadowed parts)
    (rebuilt : ∀ p, parts[i]? = some p → Rebuilt p (rebuild p)) :
    Shadowed (turn rebuild parts i) := by
  cases here : parts[i]? with
  | none =>
    rw [Gang.turn, here]
    exact inv
  | some p =>
    rw [turn_of_some here]
    exact ((inv.perm (perm_cons_eraseIdx here)).rebuilt (rebuilt p here)).perm
      ((set_perm here _).map _).symm

theorem turn_keeps (inv : Shadowed parts) (here : parts[i]? = some p)
    (rebuilt : Rebuilt p (rebuild p)) {q : GsPart} (mem : q ∈ parts)
    (notLower : p.priority ≤ q.priority) : applyShadows p.priority (rebuild p).2 q = q := by
  have split := perm_cons_eraseIdx here
  have front := inv.perm split
  rw [applyShadows, front.unaffected (fun call called =>
    front.apart_rest (rebuilt.tracks.only call called)) (split.mem_iff.mp mem) notLower]

theorem turn_here (inv : Shadowed parts) (here : parts[i]? = some p)
    (rebuilt : Rebuilt p (rebuild p)) : (turn rebuild parts i)[i]? = some (rebuild p).1 := by
  obtain ⟨mem, -⟩ := List.getElem?_eq_some_iff.mp here
  have kept := turn_keeps inv here rebuilt (List.mem_of_getElem? here) le_rfl
  have shadow : (rebuild p).2.foldl (ShadowCall.apply p.priority p.priority) p.shadow = p.shadow :=
    congrArg GsPart.shadow kept
  rw [turn_of_some here, List.getElem?_map, List.getElem?_set_self mem, map_some,
    applyShadows, rebuilt.shadow, rebuilt.priority, shadow, ← rebuilt.shadow, ← rebuilt.priority]

theorem turn_other (here : parts[i]? = some p) {k : Nat} (ne : i ≠ k) :
    (turn rebuild parts i)[k]? = parts[k]?.map (applyShadows p.priority (rebuild p).2) := by
  rw [turn_of_some here, getElem?_map, getElem?_set_ne ne]

theorem length_turn : (turn rebuild parts i).length = parts.length := by
  unfold turn
  cases parts[i]? with
  | none => rfl
  | some p => simp

end Turn

/-- Partitions by descending priority after the first turns of a loop: the rows up
to there are built, the partitions behind have only got other shadows. -/
structure Progress (g : Config) (jobs : Nat → JobInfo) (start now : List GsPart) (n : Nat) :
    Prop where
  shadowed : Shadowed now
  length : now.length = start.length
  descending : now.Pairwise fun p q => q.priority ≤ p.priority
  built : ∀ k p, k < n → now[k]? = some p → Apart g jobs p
  ahead : ∀ k p, n ≤ k → now[k]? = some p →
    ∃ old, start[k]? = some old ∧ p.jobList = old.jobList

namespace Progress

variable {rebuild : GsPart → GsPart × List ShadowCall} {start now : List GsPart} {n : Nat}

theorem turn (progress : Progress g jobs start now n)
    (rebuilt : ∀ p, now[n]? = some p → Rebuilt p (rebuild p) ∧ Apart g jobs (rebuild p).1) :
    Progress g jobs start (Gang.turn rebuild now n) (n + 1) := by
  obtain ⟨shadowed, length, descending, built, ahead⟩ := progress
  cases here : now[n]? with
  | none =>
    have same : Gang.turn rebuild now n = now := by rw [Gang.turn, here]
    rw [same]
    refine ⟨shadowed, length, descending, ?_, ?_⟩
    · intro k p early mem
      rcases Nat.lt_succ_iff_lt_or_eq.mp early with earlier | rfl
      · exact built k p earlier mem
      · rw [here] at mem
        cases mem
    · exact fun k p late => ahead k p (Nat.le_of_succ_le late)
  | some p =>
    obtain ⟨rebuiltHere, apart⟩ := rebuilt p here
    refine ⟨shadowed.turn fun q mem => (rebuilt q mem).1, length_turn.trans length, ?_, ?_, ?_⟩
    · have priorities : (Gang.turn rebuild now n).map GsPart.priority =
          now.map GsPart.priority := by
        refine ext_getElem? fun k => ?_
        rw [getElem?_map, getElem?_map]
        by_cases same : n = k
        · rw [← same, turn_here shadowed here rebuiltHere, here, map_some, map_some,
            rebuiltHere.priority]
        · rw [turn_other here same, Option.map_map]
          rfl
      have sorted : (now.map GsPart.priority).Pairwise fun one two => two ≤ one :=
        pairwise_map.mpr descending
      rw [← priorities] at sorted
      exact pairwise_map.mp sorted
    · intro k q early mem
      rcases Nat.lt_succ_iff_lt_or_eq.mp early with earlier | rfl
      · rw [turn_other here (Nat.ne_of_gt earlier)] at mem
        obtain ⟨old, oldHere, rfl⟩ := map_eq_some_iff.mp mem
        have higher : p.priority ≤ old.priority := by
          obtain ⟨kInside, rfl⟩ := List.getElem?_eq_some_iff.mp oldHere
          obtain ⟨nInside, rfl⟩ := List.getElem?_eq_some_iff.mp here
          exact List.pairwise_iff_getElem.mp descending k n kInside nInside earlier
        rw [turn_keeps shadowed here rebuiltHere (List.mem_of_getElem? oldHere) higher]
        exact built k old earlier oldHere
      · rw [turn_here shadowed here rebuiltHere] at mem
        exact some.inj mem ▸ apart
    · intro k q late mem
      rw [turn_other here (Nat.ne_of_lt late)] at mem
      obtain ⟨now, nowHere, rfl⟩ := map_eq_some_iff.mp mem
      exact ahead k now (Nat.le_of_succ_le late) nowHere

theorem turns (shadowed : Shadowed start) (descending : start.Pairwise fun p q => q.priority ≤ p.priority)
    (rebuilt : ∀ n p, Progress g jobs start (turns rebuild start n) n →
      (turns rebuild start n)[n]? = some p → Rebuilt p (rebuild p) ∧ Apart g jobs (rebuild p).1)
    (n : Nat) : Progress g jobs start (turns rebuild start n) n := by
  induction n with
  | zero =>
    refine ⟨shadowed, rfl, descending, ?_, ?_⟩
    · intro k p early
      exact absurd early (Nat.not_lt_zero k)
    · exact fun k p _ here => ⟨p, here, rfl⟩
  | succ n ih =>
    have step : Gang.turns rebuild start (n + 1) =
        Gang.turn rebuild (Gang.turns rebuild start n) n := by
      rw [Gang.turns, Gang.turns, range_succ, foldl_append]
      rfl
    rw [step]
    exact ih.turn fun p here => rebuilt n p ih here

theorem all_built (progress : Progress g jobs start now start.length) :
    ∀ p ∈ now, Apart g jobs p := by
  intro p mem
  obtain ⟨k, early, rfl⟩ := getElem_of_mem mem
  exact progress.built k _ (progress.length ▸ early) (getElem?_eq_getElem early)

end Progress

variable {parts : List GsPart} {p : GsPart} {i job : Nat}

theorem Shadowed.distinct_of_mem (inv : Shadowed parts) (mem : p ∈ parts) :
    (p.jobList.map GsJob.jobId).Nodup := by
  obtain ⟨i, early, rfl⟩ := getElem_of_mem mem
  have front := inv.perm (perm_cons_eraseIdx (getElem?_eq_getElem early))
  have distinct := front.distinct
  rw [trackedIds_cons, nodup_append] at distinct
  exact distinct.1

theorem sortPartitions_perm (parts : List GsPart) : parts.Perm (sortPartitions parts) :=
  (perm_insertionSort _ parts).symm

theorem sortPartitions_descending (parts : List GsPart) :
    (sortPartitions parts).Pairwise fun p q => q.priority ≤ p.priority := by
  exact pairwise_insertionSort _ parts

theorem updateAllActiveRows_spec {parts : List GsPart} (inv : Shadowed parts) :
    Shadowed (updateAllActiveRows g jobs parts) ∧
      ∀ p ∈ updateAllActiveRows g jobs parts, Apart g jobs p := by
  have sameLength := (sortPartitions_perm parts).length_eq
  have progress : Progress g jobs (sortPartitions parts)
      (turns (updateActiveRow g jobs true) (sortPartitions parts) (sortPartitions parts).length)
      (sortPartitions parts).length := by
    refine Progress.turns (inv.perm (sortPartitions_perm parts)) (sortPartitions_descending parts)
      ?_ _
    intro n p progress here
    have inside := mem_of_getElem? here
    exact updateActiveRow_rebuilt (progress.shadowed.consistent p inside)
      (progress.shadowed.distinct_of_mem inside) true
  rw [updateAllActiveRows, sameLength]
  exact ⟨progress.shadowed, progress.all_built⟩

/-! ## The timeslicer -/

/-- Whenever the counters let the timeslicer skip a partition, the jobs that are
new in its shadow array since the pass began are apart from its running jobs. -/
def SkipsSafely (g : Config) (jobs : Nat → JobInfo) (parts : List GsPart) : Prop :=
  ∀ n p old, (turns (timeslice g jobs) (sortPartitions parts) n)[n]? = some p →
    (sortPartitions parts)[n]? = some old →
    p.jobList.length + p.shadow.length ≤ p.row.jobsActive →
    ∀ id ∈ p.shadow, id ∉ old.shadow → ∀ job ∈ p.jobList, job.sigState = .resume →
      Disjoint (usage g jobs job.jobId) (usage g jobs id)

theorem timeslicerPass_spec (inv : Shadowed parts) (apart : ∀ p ∈ parts, Apart g jobs p)
    (safe : SkipsSafely g jobs parts) :
    Shadowed (timeslicerPass g jobs parts) ∧ ∀ p ∈ timeslicerPass g jobs parts, Apart g jobs p := by
  have sameLength := (sortPartitions_perm parts).length_eq
  have progress : Progress g jobs (sortPartitions parts)
      (turns (timeslice g jobs) (sortPartitions parts) (sortPartitions parts).length)
      (sortPartitions parts).length := by
    refine Progress.turns (inv.perm (sortPartitions_perm parts)) (sortPartitions_descending parts)
      ?_ _
    intro n p progress here
    have inside := mem_of_getElem? here
    unfold timeslice
    split_ifs with behind
    · exact cycleJobList_rebuilt (progress.shadowed.distinct_of_mem inside)
    · obtain ⟨old, oldHere, sameJobs⟩ := progress.ahead n p le_rfl here
      have apartOld := apart old ((sortPartitions_perm parts).mem_iff.mpr (mem_of_getElem? oldHere))
      refine ⟨⟨rfl, rfl, List.Perm.refl _, progress.shadowed.consistent p inside, .same _⟩, ?_, ?_⟩
      · rw [sameJobs]
        exact apartOld.within
      · intro job inList resumed id shadowed
        by_cases new : id ∈ old.shadow
        · exact apartOld.shadows job (sameJobs ▸ inList) resumed id new
        · exact safe n p old here oldHere (Nat.not_lt.mp behind) id shadowed new job inList resumed
  rw [timeslicerPass, sameLength]
  exact ⟨progress.shadowed, progress.all_built⟩

/-! ## Starting and ending jobs -/

theorem eraseP_eq_filter {jobList : List GsJob} (distinct : (jobList.map GsJob.jobId).Nodup)
    (job : Nat) : jobList.eraseP (·.jobId = job) = jobList.filter (·.jobId ≠ job) := by
  induction jobList with
  | nil => rfl
  | cons head tail ih =>
    rw [map_cons, nodup_cons] at distinct
    by_cases same : head.jobId = job
    · have others : tail.filter (·.jobId ≠ job) = tail := by
        refine filter_eq_self.mpr ?_
        intro other mem
        refine decide_eq_true ?_
        rintro rfl
        exact distinct.1 (same ▸ mem_map_of_mem mem)
      rw [eraseP_cons_of_pos (by simp [same]), filter_cons_of_neg (by simp [same]), others]
    · rw [eraseP_cons_of_neg (by simp [same]), filter_cons_of_pos (by simp [same]), ih distinct.2]

/-- The partition without the job. -/
def GsPart.without (p : GsPart) (job : Nat) : GsPart :=
  { p with jobList := p.jobList.filter (·.jobId ≠ job) }

theorem removeJobFromPart_cases (inv : Shadowed parts) (here : parts[i]? = some p) :
    job ∉ p.jobList.map GsJob.jobId ∧ removeJobFromPart parts i job = parts ∨
    job ∈ p.jobList.map GsJob.jobId ∧ removeJobFromPart parts i job =
      (parts.set i (p.without job)).map (applyShadows p.priority [.clear job]) := by
  have any_iff : p.jobList.any (·.jobId = job) = true ↔ job ∈ p.jobList.map GsJob.jobId := by
    simp
  unfold removeJobFromPart
  rw [here]
  simp only [any_iff]
  split_ifs with listed
  · refine Or.inr ⟨listed, ext_getElem? fun k => ?_⟩
    rw [getElem?_modify, getElem?_map, getElem?_map]
    by_cases same : i = k
    · subst same
      obtain ⟨mem, -⟩ := List.getElem?_eq_some_iff.mp here
      rw [List.getElem?_set_self mem, here]
      simp [applyShadows, GsPart.without,
        eraseP_eq_filter (inv.distinct_of_mem (List.mem_of_getElem? here))]
    · simp [same]
  · exact Or.inl ⟨listed, rfl⟩

theorem Shadowed.remove (inv : Shadowed parts) (i job : Nat) :
    Shadowed (removeJobFromPart parts i job) := by
  cases here : parts[i]? with
  | none =>
    rw [removeJobFromPart, here]
    exact inv
  | some p =>
    rcases removeJobFromPart_cases inv here with ⟨-, same⟩ | ⟨listed, result⟩
    · rw [same]
      exact inv
    rw [result]
    have front := inv.perm (perm_cons_eraseIdx here)
    refine Shadowed.perm ((set_perm here _).map _).symm (front.exchange rfl rfl ?_ ?_ ?_ ?_)
    · have sublist : (trackedIds (p.without job :: parts.eraseIdx i)).Sublist
          (trackedIds (p :: parts.eraseIdx i)) := by
        exact (filter_sublist.map _).append_right _
      exact front.distinct.sublist sublist
    · intro other mem
      exact front.consistent p mem_cons_self other (mem_of_mem_filter mem)
    · intro call called
      rw [mem_singleton.mp called]
      exact front.apart_rest listed
    · intro shadow nodup known member
      refine ⟨?_, ?_⟩
      · intro other mem
        obtain ⟨inList, ne⟩ := mem_filter.mp mem
        rw [mem_lowerShadow_of_other]
        · exact member other inList
        · intro call called same
          rw [mem_singleton.mp called] at same
          exact of_decide_eq_true ne same.symm
      · intro id shadowed
        obtain ⟨ne, inShadow⟩ := (nodup.mem_erase_iff).mp shadowed
        have tracked := known id inShadow
        rw [trackedIds_cons, mem_append] at tracked ⊢
        rcases tracked with inP | inRest
        · obtain ⟨other, inList, rfl⟩ := mem_map.mp inP
          exact Or.inl (mem_map_of_mem (mem_filter.mpr ⟨inList, decide_eq_true ne⟩))
        · exact Or.inr inRest

theorem not_mem_trackedIds_remove (inv : Shadowed parts) (here : parts[i]? = some p)
    (listed : job ∈ p.jobList.map GsJob.jobId) :
    job ∉ trackedIds (removeJobFromPart parts i job) := by
  rcases removeJobFromPart_cases inv here with ⟨absent, -⟩ | ⟨-, result⟩
  · exact absurd listed absent
  rw [result]
  have front := inv.perm (perm_cons_eraseIdx here)
  have sameIds : (trackedIds ((parts.set i (p.without job)).map
      (applyShadows p.priority [.clear job]))).Perm
      (trackedIds (p.without job :: parts.eraseIdx i)) := by
    rw [trackedIds, flatMap_map]
    exact (set_perm here _).flatMap_right _
  rw [sameIds.mem_iff, trackedIds_cons, mem_append]
  rintro (inP | inRest)
  · obtain ⟨other, mem, same⟩ := mem_map.mp inP
    exact of_decide_eq_true (mem_filter.mp mem).2 same
  · exact front.apart_rest listed inRest

theorem Apart.mono {q : GsPart} (apart : Apart g jobs p)
    (running : ∀ job ∈ q.jobList, job.sigState = .resume →
      ∃ old ∈ p.jobList, old.jobId = job.jobId ∧ old.sigState = .resume)
    (shadows : ∀ id ∈ q.shadow, id ∈ p.shadow) : Apart g jobs q := by
  refine ⟨?_, ?_⟩
  · intro job mem other otherInside resumed otherResumed ne
    obtain ⟨old, inP, sameId, oldResumed⟩ := running job mem resumed
    obtain ⟨otherOld, otherInP, otherId, otherOldResumed⟩ := running other otherInside otherResumed
    rw [← sameId, ← otherId] at ne ⊢
    exact apart.within old inP otherOld otherInP oldResumed otherOldResumed ne
  · intro job mem resumed id shadowed
    obtain ⟨old, inP, sameId, oldResumed⟩ := running job mem resumed
    rw [← sameId]
    exact apart.shadows old inP oldResumed id (shadows id shadowed)

theorem removeJobFromPart_apart (inv : Shadowed parts) (apart : ∀ p ∈ parts, Apart g jobs p) :
    ∀ p ∈ removeJobFromPart parts i job, Apart g jobs p := by
  cases here : parts[i]? with
  | none =>
    rw [removeJobFromPart, here]
    exact apart
  | some p =>
    rcases removeJobFromPart_cases inv here with ⟨-, same⟩ | ⟨-, result⟩
    · rw [same]
      exact apart
    rw [result]
    intro q mem
    obtain ⟨old, inSet, rfl⟩ := mem_map.mp mem
    rcases mem_or_eq_of_mem_set inSet with inParts | rfl
    · exact (apart old inParts).mono (fun job inList resumed => ⟨job, inList, rfl, resumed⟩)
        fun id shadowed => mem_of_mem_erase shadowed
    · exact (apart p (mem_of_getElem? here)).mono
        (fun job inList resumed => ⟨job, mem_of_mem_filter inList, rfl, resumed⟩)
        fun id shadowed => mem_of_mem_erase shadowed

theorem turn_shadows {rebuild : GsPart → GsPart × List ShadowCall} {q : GsPart}
    (inv : Shadowed parts) (here : parts[i]? = some p) (rebuilt : Rebuilt p (rebuild p))
    (noneResumed : ∀ job ∈ (rebuild p).1.jobList, job.sigState = .resume →
      ∃ old ∈ p.jobList, old.jobId = job.jobId ∧ old.sigState = .resume)
    (mem : q ∈ parts) :
    ∀ id ∈ (applyShadows p.priority (rebuild p).2 q).shadow, id ∈ q.shadow := by
  intro id shadowed
  have inP := mem_of_getElem? here
  by_cases lower : q.priority < p.priority
  · rw [applyShadows, foldl_apply_of_lt lower] at shadowed
    by_cases called : ∃ call ∈ (rebuild p).2, call.job = id
    · obtain ⟨call, inCalls, rfl⟩ := called
      obtain ⟨job, inNew, sameId⟩ := mem_map.mp
        (rebuilt.sameIds.mem_iff.mpr (rebuilt.tracks.only call inCalls))
      have resumed : job.sigState = .resume := by
        refine (rebuilt.tracks.member q.shadow (inv.nodup q mem) ?_ job inNew).mp
          (sameId ▸ shadowed)
        intro old inOld
        rw [inv.cast_iff q mem p inP old inOld]
        exact and_iff_right lower
      obtain ⟨old, inOld, oldId, oldResumed⟩ := noneResumed job inNew resumed
      rw [← sameId, ← oldId, inv.cast_iff q mem p inP old inOld]
      exact ⟨lower, oldResumed⟩
    · exact (mem_lowerShadow_of_other (fun call inCalls same => called ⟨call, inCalls, same⟩) _).mp
        shadowed
  · rw [turn_keeps inv here rebuilt mem (Nat.not_lt.mp lower)] at shadowed
    exact shadowed

theorem turn_update_spec (inv : Shadowed parts) (i : Nat) (apart : ∀ p ∈ parts, Apart g jobs p) :
    Shadowed (turn (updateActiveRow g jobs false) parts i) ∧
    (∀ p ∈ turn (updateActiveRow g jobs false) parts i, Apart g jobs p) ∧
    (trackedIds (turn (updateActiveRow g jobs false) parts i)).Perm (trackedIds parts) := by
  cases here : parts[i]? with
  | none =>
    have same : turn (updateActiveRow g jobs false) parts i = parts := by rw [turn, here]
    rw [same]
    exact ⟨inv, apart, List.Perm.refl _⟩
  | some p =>
    have inP := mem_of_getElem? here
    have rebuilt := @updateActiveRow_rebuilt g jobs p (inv.consistent p inP)
      (inv.distinct_of_mem inP) false
    refine ⟨inv.turn fun q inQ => ?_, ?_, ?_⟩
    · rw [here] at inQ
      exact some.inj inQ ▸ rebuilt.1
    · intro q mem
      obtain ⟨k, early, rfl⟩ := getElem_of_mem mem
      have atK := getElem?_eq_getElem early
      by_cases same : i = k
      · subst same
        rw [turn_here inv here rebuilt.1] at atK
        exact some.inj atK ▸ rebuilt.2
      · rw [turn_other here same] at atK
        obtain ⟨old, oldHere, result⟩ := map_eq_some_iff.mp atK
        have inOld := mem_of_getElem? oldHere
        rw [← result]
        exact (apart old inOld).mono (fun job inList resumed => ⟨job, inList, rfl, resumed⟩)
          (turn_shadows inv here rebuilt.1 (fun job => updateActiveRow_resumed) inOld)
    · rw [turn_of_some here, trackedIds, flatMap_map]
      have moved := (set_perm here (updateActiveRow g jobs false p).1).flatMap_right
        fun p => p.jobList.map GsJob.jobId
      have exchanged : (trackedIds ((updateActiveRow g jobs false p).1 :: parts.eraseIdx i)).Perm
          (trackedIds (p :: parts.eraseIdx i)) := by
        exact rebuilt.1.sameIds.append_right _
      exact moved.trans (exchanged.trans ((perm_cons_eraseIdx here).symm.flatMap_right _))

theorem apart_update (inv : Shadowed parts) (fresh : job ∉ trackedIds parts) (info : JobInfo)
    (apart : ∀ p ∈ parts, Apart g jobs p) :
    ∀ p ∈ parts, Apart g (update jobs job info) p := by
  have same : ∀ id ∈ trackedIds parts, usage g (update jobs job info) id = usage g jobs id := by
    intro id tracked
    have ne : id ≠ job := by
      rintro rfl
      exact fresh tracked
    simp [usage, Function.update_of_ne ne]
  intro p mem
  have own : ∀ other ∈ p.jobList, other.jobId ∈ trackedIds parts := by
    intro other inList
    exact mem_trackedIds.mpr ⟨p, mem, other, inList, rfl⟩
  refine ⟨?_, ?_⟩
  · intro one inOne two inTwo resumedOne resumedTwo ne
    rw [same _ (own one inOne), same _ (own two inTwo)]
    exact (apart p mem).within one inOne two inTwo resumedOne resumedTwo ne
  · intro one inOne resumed id shadowed
    rw [same _ (own one inOne), same _ (inv.known p mem id shadowed)]
    exact (apart p mem).shadows one inOne resumed id shadowed

theorem Shadowed.append {parts : List GsPart} (inv : Shadowed parts) {i : Nat} {p : GsPart}
    (here : parts[i]? = some p) {job : GsJob} (fresh : job.jobId ∉ trackedIds parts)
    (consistent : Consistent job) {calls : List ShadowCall}
    (tracks : Tracks calls job.jobId False (job.sigState = .resume)) (row : ActiveRow) :
    Shadowed ((parts.set i { p with jobList := p.jobList ++ [job], row := row }).map
      (applyShadows p.priority calls)) := by
  have front := inv.perm (perm_cons_eraseIdx here)
  have sameIds : (trackedIds parts).Perm (trackedIds (p :: parts.eraseIdx i)) :=
    (perm_cons_eraseIdx here).flatMap_right _
  rw [sameIds.mem_iff] at fresh
  have moreIds : (trackedIds ({ p with jobList := p.jobList ++ [job], row := row } ::
      parts.eraseIdx i)).Perm (job.jobId :: trackedIds (p :: parts.eraseIdx i)) := by
    rw [trackedIds_cons, trackedIds_cons, map_append, append_assoc]
    exact perm_middle
  refine Shadowed.perm ((set_perm here _).map _).symm (front.exchange rfl rfl ?_ ?_ ?_ ?_)
  · rw [moreIds.nodup_iff]
    exact nodup_cons.mpr ⟨fresh, front.distinct⟩
  · intro other mem
    rcases mem_append.mp mem with old | new
    · exact front.consistent p mem_cons_self other old
    · exact mem_singleton.mp new ▸ consistent
  · intro call called inRest
    rw [tracks.only call called] at inRest
    exact fresh (mem_append_right _ inRest)
  · intro shadow nodup known member
    refine ⟨?_, ?_⟩
    · intro other mem
      rcases mem_append.mp mem with old | new
      · rw [mem_lowerShadow_of_other]
        · exact member other old
        · intro call called same
          rw [tracks.only call called] at same
          refine fresh ?_
          rw [trackedIds_cons, same]
          exact mem_append_left _ (mem_map_of_mem old)
      · rw [mem_singleton.mp new]
        exact tracks.member shadow nodup ⟨fun inShadow => fresh (known _ inShadow), False.elim⟩
    · intro id shadowed
      rw [moreIds.mem_iff]
      by_cases same : id = job.jobId
      · exact same ▸ mem_cons_self
      · refine mem_cons_of_mem _ (known id ?_)
        refine (mem_lowerShadow_of_other ?_ shadow).mp shadowed
        intro call called sameId
        exact same (sameId.symm.trans (tracks.only call called))

theorem appendJob_spec (inv : Shadowed parts) (i : Nat) (fresh : job ∉ trackedIds parts)
    (apart : ∀ p ∈ parts, Apart g jobs p) :
    Shadowed (appendJob g jobs parts i job).1 ∧ ((appendJob g jobs parts i job).2 ≠ .resume →
      ∀ p ∈ (appendJob g jobs parts i job).1, Apart g jobs p) := by
  unfold appendJob
  cases here : parts[i]? with
  | none => exact ⟨inv, fun _ => apart⟩
  | some p =>
    simp only
    split_ifs
    · refine ⟨@inv.append _ i p here ⟨job, .resume, .filler⟩ fresh ?_ _ (.cast rfl) _,
        fun notResumed => absurd rfl notResumed⟩
      exact ⟨RowState.noConfusion, SigState.noConfusion⟩
    · have added := @Shadowed.append _ inv i p here ⟨job, .suspend, .noActive⟩ fresh
        ⟨fun _ => rfl, fun _ => rfl⟩ [] ⟨fun call called => absurd called not_mem_nil,
          fun shadow _ member => member.trans ⟨False.elim, SigState.noConfusion⟩⟩ p.row
      have noCalls : ∀ others : List GsPart, others.map (applyShadows p.priority []) = others :=
        fun others => map_id others
      rw [noCalls] at added
      refine ⟨added, fun _ q mem => ?_⟩
      rcases mem_or_eq_of_mem_set mem with inParts | rfl
      · exact apart q inParts
      · refine (apart p (mem_of_getElem? here)).mono ?_ fun id shadowed => shadowed
        intro other inList resumed
        rcases mem_append.mp inList with old | new
        · exact ⟨other, old, rfl, resumed⟩
        · rw [mem_singleton.mp new] at resumed
          cases resumed

theorem addJobToPart_spec (inv : Shadowed parts) (info : JobInfo)
    (own : ∀ k p, parts[k]? = some p → job ∈ p.jobList.map GsJob.jobId → i = k)
    (apart : ∀ p ∈ parts, Apart g jobs p) :
    Shadowed (addJobToPart g (update jobs job info) parts i job).1 ∧
    ((addJobToPart g (update jobs job info) parts i job).2 ≠ .resume →
      ∀ p ∈ (addJobToPart g (update jobs job info) parts i job).1,
        Apart g (update jobs job info) p) := by
  have fresh_of : (∀ p, parts[i]? = some p → job ∉ p.jobList.map GsJob.jobId) →
      job ∉ trackedIds parts := by
    intro absent tracked
    obtain ⟨p, mem, other, inList, rfl⟩ := mem_trackedIds.mp tracked
    obtain ⟨k, early, rfl⟩ := getElem_of_mem mem
    have here := getElem?_eq_getElem early
    have listed : other.jobId ∈ parts[k].jobList.map GsJob.jobId := mem_map_of_mem inList
    exact absent _ (own k _ here listed ▸ here) listed
  unfold addJobToPart
  cases here : parts[i]? with
  | none =>
    refine ⟨inv, fun _ => apart_update inv (fresh_of fun p hereP => ?_) info apart⟩
    rw [here] at hereP
    cases hereP
  | some p =>
    simp only
    split_ifs with duplicate
    · have listed : job ∈ p.jobList.map GsJob.jobId := by simpa using duplicate
      have gone := not_mem_trackedIds_remove inv here listed
      have removed := inv.remove i job
      obtain ⟨turned, rows, sameIds⟩ := turn_update_spec removed i
        (apart_update removed gone info (removeJobFromPart_apart inv apart))
      exact appendJob_spec turned i (fun tracked => gone (sameIds.mem_iff.mp tracked)) rows
    · have fresh : job ∉ trackedIds parts := by
        refine fresh_of fun q hereQ listed => ?_
        rw [here] at hereQ
        rw [← some.inj hereQ] at listed
        exact duplicate (by simpa using listed)
      exact appendJob_spec inv i fresh (apart_update inv fresh info apart)

/-! ## Runs -/

/-- What holds of the partitions after every operation. -/
structure Sound (g : Config) (s : GangState) : Prop where
  shadowed : Shadowed s.parts
  apart : ∀ p ∈ s.parts, Apart g s.jobs p

/-- A job that is started is tracked by no other partition than its own. -/
def GangState.Allowed (s : GangState) : GangOp → Prop
  | .jobStart job _ partName => ∀ k p, s.parts[k]? = some p → job ∈ p.jobList.map GsJob.jobId →
      s.parts.findIdx? (·.partName = partName) = some k
  | .jobFini _ _ => True
  | .timeslicer => True

/-- The condition on the passes of the timeslicer. -/
def GangState.SkipsSafely (g : Config) (s : GangState) : GangOp → Prop
  | .timeslicer => Gang.SkipsSafely g s.jobs s.parts
  | _ => True

namespace Sound

variable {s : GangState}

theorem jobStart (sound : Sound g s) {job : Nat} {info : JobInfo} {partName : String}
    (allowed : s.Allowed (.jobStart job info partName)) :
    Sound g (s.gsJobStart g job info partName) := by
  obtain ⟨inv, apart⟩ := sound
  unfold GangState.gsJobStart
  cases found : s.parts.findIdx? (·.partName = partName) with
  | none =>
    refine ⟨inv, apart_update inv ?_ info apart⟩
    intro tracked
    obtain ⟨p, mem, other, inList, rfl⟩ := mem_trackedIds.mp tracked
    obtain ⟨k, early, rfl⟩ := getElem_of_mem mem
    have foundK := allowed k _ (getElem?_eq_getElem early) (mem_map_of_mem inList)
    rw [found] at foundK
    cases foundK
  | some i =>
    obtain ⟨shadowed, rows⟩ := addJobToPart_spec inv info (fun k p here listed =>
      some.inj (found.symm.trans (allowed k p here listed))) apart
    simp only
    split_ifs with resumed
    · have updated := @updateAllActiveRows_spec g (update s.jobs job info) _ shadowed
      exact ⟨updated.1, updated.2⟩
    · exact ⟨shadowed, rows resumed⟩

theorem jobFini (sound : Sound g s) (job : Nat) (partName : String) :
    Sound g (s.gsJobFini g job partName) := by
  unfold GangState.gsJobFini
  cases s.parts.findIdx? (·.partName = partName) with
  | none => exact sound
  | some i =>
    have updated := @updateAllActiveRows_spec g s.jobs _ (sound.shadowed.remove i job)
    exact ⟨updated.1, updated.2⟩

theorem apply (sound : Sound g s) {op : GangOp} (allowed : s.Allowed op)
    (safe : s.SkipsSafely g op) : Sound g (s.apply g op) := by
  cases op with
  | jobStart job info partName => exact sound.jobStart allowed
  | jobFini job partName => exact sound.jobFini job partName
  | timeslicer =>
    have passed := timeslicerPass_spec sound.shadowed sound.apart safe
    exact ⟨passed.1, passed.2⟩

end Sound

namespace GangState

variable (g : Config)

def run (s : GangState) (ops : List GangOp) : GangState :=
  ops.foldl (apply g) s

/-- The operations of a run are allowed and meet a condition. -/
def Runs (Condition : GangState → GangOp → Prop) : GangState → List GangOp → Prop
  | _, [] => True
  | s, op :: ops => s.Allowed op ∧ Condition s op ∧ (s.apply g op).Runs Condition ops

/-- Partitions without jobs. -/
def Blank (s : GangState) : Prop :=
  ∀ p ∈ s.parts, p.jobList = [] ∧ p.shadow = []

/-- Running jobs do not share nodes or cores within a partition or with
partitions of higher priority, and the shadow arrays are exact. -/
structure Exclusive (s : GangState) : Prop where
  within : ∀ p ∈ s.parts, p.jobList.Pairwise fun job other => job.sigState = .resume →
    other.sigState = .resume → Disjoint (usage g s.jobs job.jobId) (usage g s.jobs other.jobId)
  across : ∀ p ∈ s.parts, ∀ q ∈ s.parts, q.priority < p.priority → ∀ job ∈ q.jobList,
    ∀ other ∈ p.jobList, job.sigState = .resume → other.sigState = .resume →
    Disjoint (usage g s.jobs job.jobId) (usage g s.jobs other.jobId)
  once : ∀ q ∈ s.parts, q.shadow.Nodup
  shadow : ∀ q ∈ s.parts, ∀ id, (id ∈ q.shadow ↔ ∃ p ∈ s.parts, q.priority < p.priority ∧
    ∃ job ∈ p.jobList, job.jobId = id ∧ job.sigState = .resume)

end GangState

namespace Sound

variable {s : GangState}

theorem blank (isBlank : s.Blank) : Sound g s := by
  have noJobs : ∀ p ∈ s.parts, ∀ job, job ∉ p.jobList := by
    intro p mem job
    rw [(isBlank p mem).1]
    exact not_mem_nil
  refine ⟨⟨?_, ?_, ?_, ?_, ?_⟩, ?_⟩
  · have noIds : trackedIds s.parts = [] := by
      refine eq_nil_iff_forall_not_mem.mpr fun id tracked => ?_
      obtain ⟨p, mem, job, inList, -⟩ := mem_trackedIds.mp tracked
      exact noJobs p mem job inList
    rw [noIds]
    exact nodup_nil
  · exact fun p mem job inList => absurd inList (noJobs p mem job)
  · intro q mem
    rw [(isBlank q mem).2]
    exact nodup_nil
  · intro q mem id shadowed
    rw [(isBlank q mem).2] at shadowed
    cases shadowed
  · exact fun q _ p mem job inList => absurd inList (noJobs p mem job)
  · intro p mem
    exact ⟨fun job inList => absurd inList (noJobs p mem job),
      fun job inList => absurd inList (noJobs p mem job)⟩

theorem exclusive (sound : Sound g s) : s.Exclusive g := by
  obtain ⟨inv, apart⟩ := sound
  refine ⟨?_, ?_, inv.nodup, ?_⟩
  · intro p mem
    have distinct : p.jobList.Pairwise fun job other => job.jobId ≠ other.jobId :=
      pairwise_map.mp (inv.distinct_of_mem mem)
    refine distinct.imp_of_mem ?_
    intro job other inJob inOther ne resumed otherResumed
    exact (apart p mem).within job inJob other inOther resumed otherResumed ne
  · intro p inP q inQ lower job inJob other inOther resumed otherResumed
    exact (apart q inQ).shadows job inJob resumed other.jobId
      ((inv.cast_iff q inQ p inP other inOther).mpr ⟨lower, otherResumed⟩)
  · intro q inQ id
    constructor
    · intro shadowed
      obtain ⟨p, inP, job, inList, rfl⟩ := mem_trackedIds.mp (inv.known q inQ id shadowed)
      obtain ⟨lower, resumed⟩ := (inv.cast_iff q inQ p inP job inList).mp shadowed
      exact ⟨p, inP, lower, job, inList, rfl, resumed⟩
    · rintro ⟨p, inP, lower, job, inList, rfl, resumed⟩
      exact (inv.cast_iff q inQ p inP job inList).mpr ⟨lower, resumed⟩

theorem run {ops : List GangOp} : ∀ {s : GangState}, Sound g s →
    s.Runs g (GangState.SkipsSafely g) ops → Sound g (s.run g ops) := by
  induction ops with
  | nil =>
    intro s sound _
    exact sound
  | cons op ops ih =>
    intro s sound runs
    exact ih (sound.apply runs.1 runs.2.1) runs.2.2

end Sound

theorem skipsSafely_of_rebuilt {parts : List GsPart}
    (rebuilt : ∀ n < parts.length, ∀ p ∈ (turns (timeslice g jobs) (sortPartitions parts) n)[n]?,
      p.row.jobsActive < p.jobList.length + p.shadow.length) :
    SkipsSafely g jobs parts := by
  intro n p old here oldHere skipped
  have early : n < parts.length := by
    rw [(sortPartitions_perm parts).length_eq]
    exact (List.getElem?_eq_some_iff.mp oldHere).1
  exact absurd skipped (Nat.not_le.mpr (rebuilt n early p here))

/-- Nodes with one core each, which are not shared. -/
def wholeNodes : Config := ⟨⟨2, fun _ => 1, fun _ => Nat.one_pos⟩, .node, fun _ => 1⟩

/-- A job on the given nodes. -/
def onNodes (nodes : Finset Nat) : JobInfo := ⟨⟨[], [], [], nodes, 0, 0, [], 0⟩, 1, false⟩

/-- Two partitions without jobs, of different priorities. -/
def highAndLow : GangState :=
  ⟨[⟨"high", 2, [], [], ⟨0, none⟩⟩, ⟨"low", 1, [], [], ⟨0, none⟩⟩], fun _ => onNodes ∅⟩

/-- Each partition has two jobs to share its time between. -/
def sharedTime : List GangOp :=
  [.jobStart 1 (onNodes {0}) "high", .jobStart 2 (onNodes {0, 1}) "high",
    .jobStart 3 (onNodes {1}) "low", .jobStart 4 (onNodes {1}) "low", .timeslicer, .timeslicer]

/-- The lower partition has one job and one shadow, whichever job of the upper
partition casts it, so the timeslicer never rebuilds its row. -/
def exchangedShadow : List GangOp :=
  [.jobStart 1 (onNodes {0}) "high", .jobStart 2 (onNodes {0, 1}) "high",
    .jobStart 3 (onNodes {1}) "low", .timeslicer, .timeslicer]

theorem highAndLow_blank : highAndLow.Blank := by
  intro p inside
  rcases mem_cons.mp inside with rfl | inside
  · exact ⟨rfl, rfl⟩
  · rw [mem_singleton.mp inside]
    exact ⟨rfl, rfl⟩

theorem allowed_of_fresh {s : GangState} {job : Nat} (info : JobInfo) (partName : String)
    (fresh : job ∉ trackedIds s.parts) : s.Allowed (.jobStart job info partName) := by
  intro k p here listed
  obtain ⟨other, inList, rfl⟩ := mem_map.mp listed
  exact absurd (mem_trackedIds.mpr ⟨p, mem_of_getElem? here, other, inList, rfl⟩) fresh

end SlurmSim.Controller.Gang
