/-
# Unpacking a whole tree (`dir_unpacker.rs`)

From the hash of a whole tree every walk of `unpack` ends.  The queue is worked off after as many
rounds as the trees on it unfold to (`Unfolds`), no blob is missing on the way, and nothing depends
on the store but the blobs that were taken; what is left that can end the walk early is a call of
the file system that fails (`Whole.unpacks`).
-/
import Mathlib.Algebra.Order.BigOperators.Group.List
import Backuwup.Client.DirPacker.Stored
import Backuwup.Client.Siblings

namespace Backuwup.Client

/-- The store has every blob that was taken. -/
def HasTaken (taken : Blob → Prop) (get : GetBlob) : Prop :=
  ∀ b, taken b → get b.hash = .ok (some b)

/-- From every store with the blobs that were taken, the hash leads to the tree. -/
def FetchesTo (taken : Blob → Prop) (fuel : ℕ) (hash : BlobHash) (t : Tree) : Prop :=
  ∀ get, HasTaken taken get → fetchFullTree get fuel hash = .ok t

/-- From the tree on, a queue of directories is worked off after so many rounds. -/
inductive Unfolds (taken : Blob → Prop) : Tree → ℕ → Prop
  | file (t : Tree) (n : ℕ) : t.kind = .file → (∀ h ∈ t.children, ∃ b, taken b ∧ b.hash = h) →
      0 < n → Unfolds taken t n
  | dir (t : Tree) (child : BlobHash → Tree) (cost : BlobHash → ℕ) (n : ℕ) : t.kind = .dir →
      (∀ h ∈ t.children, ∀ fuel, cost h ≤ fuel → FetchesTo taken fuel h (child h)) →
      (∀ h ∈ t.children, Unfolds taken (child h) (cost h)) →
      (t.children.map cost).sum < n → Unfolds taken t n

section

variable {P : Primitives} {taken : Blob → Prop} {get get' : GetBlob} {io : IoFaults}
  {schedule : List (Tree × FsPath) → List (Tree × FsPath)} {fuel : ℕ}

/-! ## 1. Whole trees unfold -/

theorem Unfolds.pos {t : Tree} {n : ℕ} (h : Unfolds taken t n) : 0 < n := by
  cases h with
  | file _ _ _ _ hn => exact hn
  | dir _ _ _ _ _ _ _ hn => omega

theorem Unfolds.mono {t : Tree} {n m : ℕ} (h : Unfolds taken t n) (hle : n ≤ m) :
    Unfolds taken t m := by
  cases h with
  | file _ _ hk hc hn => exact .file t m hk hc (hn.trans_le hle)
  | dir _ child cost _ hk hf hc hn => exact .dir t child cost m hk hf hc (hn.trans_le hle)

theorem encodable_splitTrees {t : Tree} (hsib : t.nextSibling = none) (he : t.Encodable) :
    ∀ u ∈ splitTrees P t, u.Encodable := by
  intro u hu
  obtain ⟨-, hname, hmeta⟩ := (splitInto_splitTrees hsib).same u hu
  refine Tree.HeadEncodable.encodable ⟨?_, ?_, ?_, ?_, by simp⟩
    ((splitInto_splitTrees hsib).length_le u hu)
  · rw [hname]
    exact he.name
  · rw [hmeta]
    exact he.size
  · rw [hmeta]
    exact he.mtime
  · rw [hmeta]
    exact he.ctime

theorem fetchesTo_treeHash {t : Tree} (hsib : t.nextSibling = none) (he : t.Encodable)
    (hb : ∀ b ∈ splitSerializeTree P t, taken b) :
    ∃ t' : Tree, t'.kind = t.kind ∧ t'.children = t.children ∧
      ∀ fuel, (splitSerializeTree P t).length ≤ fuel → FetchesTo taken fuel (treeHash P t) t' := by
  have hsplit := splitInto_splitTrees (P := P) hsib
  have hlinked := linked_splitTrees (P := P) hsib
  have henc := encodable_splitTrees (P := P) hsib he
  rcases htrees : splitTrees P t with _ | ⟨first, rest⟩
  · exact absurd htrees hsplit.nonempty
  · rw [htrees] at hlinked henc
    have hhash : treeHash P t = (treeBlob P first).hash := by
      simp only [treeHash, hsplit.blobs, htrees, List.map_cons]
    have hchildren := hsplit.children
    rw [htrees] at hchildren
    refine ⟨{ first with children := (first :: rest).flatMap Tree.children },
      (hsplit.same first (htrees ▸ List.mem_cons_self)).1, hchildren, ?_⟩
    intro fuel hfuel get hget
    have hgets : ∀ u ∈ first :: rest, get (treeBlob P u).hash = .ok (some (treeBlob P u)) := by
      intro u hu
      refine hget _ (hb _ ?_)
      rw [hsplit.blobs, htrees]
      exact List.mem_map_of_mem hu
    rw [hsplit.blobs, htrees, List.length_map] at hfuel
    rw [hhash, fetchFullTree_linked hlinked henc hgets fuel, if_pos (hfuel.trans (Nat.le_succ _))]

theorem Whole.unfolds {hash : BlobHash} (h : Whole P taken hash) :
    ∃ t n, Unfolds taken t n ∧ ∀ fuel, n ≤ fuel → FetchesTo taken fuel hash t := by
  induction h with
  | file t hk hsib he hb hc =>
    obtain ⟨t', hk', hc', hfetch⟩ := fetchesTo_treeHash hsib he hb
    refine ⟨t', (splitSerializeTree P t).length + 1,
      .file t' _ (hk'.trans hk) (hc' ▸ hc) (Nat.succ_pos _), ?_⟩
    intro fuel hfuel
    exact hfetch fuel (by omega)
  | dir t hk hsib he hb hc ih =>
    obtain ⟨t', hk', hc', hfetch⟩ := fetchesTo_treeHash hsib he hb
    have hall : ∀ h, ∃ (u : Tree) (n : ℕ), h ∈ t.children →
        Unfolds taken u n ∧ ∀ fuel, n ≤ fuel → FetchesTo taken fuel h u := by
      intro h
      by_cases hmem : h ∈ t.children
      · obtain ⟨u, n, hu⟩ := ih h hmem
        exact ⟨u, n, fun _ => hu⟩
      · exact ⟨t, 0, fun hm => absurd hm hmem⟩
    choose child cost hchild using hall
    refine ⟨t', (splitSerializeTree P t).length + (t'.children.map cost).sum + 1,
      .dir t' child cost _ (hk'.trans hk) ?_ ?_ (by omega), ?_⟩
    · intro h hmem
      exact (hchild h (hc' ▸ hmem)).2
    · intro h hmem
      exact (hchild h (hc' ▸ hmem)).1
    · intro fuel hfuel
      exact hfetch fuel (by omega)

/-! ## 2. The directories of the queue -/

/-- The chunks of a file are all there. -/
theorem writeChunks_agree (hget : HasTaken taken get) (hget' : HasTaken taken get')
    {hashes : List BlobHash} (hc : ∀ h ∈ hashes, ∃ b, taken b ∧ b.hash = h)
    (fault : ℕ → Option ℕ) : writeChunks get fault hashes = writeChunks get' fault hashes := by
  induction hashes generalizing fault with
  | nil => rfl
  | cons hash hashes ih =>
    obtain ⟨b, hb, rfl⟩ := hc hash List.mem_cons_self
    have hrest := ih (fun h hh => hc h (List.mem_cons_of_mem _ hh)) fun i => fault (i + 1)
    simp only [writeChunks, hget b hb, hget' b hb, hrest]

def FileTaken (taken : Blob → Prop) (file : Tree × FsPath) : Prop :=
  ∀ h ∈ file.1.children, ∃ b, taken b ∧ b.hash = h

theorem restoreFiles_agree (io : IoFaults) (hget : HasTaken taken get) (hget' : HasTaken taken get')
    {files : List (Tree × FsPath)} (hfiles : ∀ x ∈ files, FileTaken taken x) (d : Dest) :
    files.foldl (io.restoreFile get) d = files.foldl (io.restoreFile get') d := by
  refine List.foldl_ext _ _ _ fun d x hx => ?_
  simp only [IoFaults.restoreFile, writeChunks_agree hget hget' (hfiles x hx)]

/-- What is known of a directory that is being unpacked: the chunks of its files were taken, and
its subdirectories unfold. -/
structure Unpacking.Whole (taken : Blob → Prop) (costs : List ℕ) (u : Unpacking) : Prop where
  files : ∀ x ∈ u.files, FileTaken taken x
  dirs : List.Forall₂ (fun x n => Unfolds taken x.1 n) u.dirs costs

/-- One child is unpacked from any store in the same way, and its cost is enough for what it adds
to the queue. -/
theorem restoreChild_agree (io : IoFaults) (hget : HasTaken taken get) (hget' : HasTaken taken get')
    {hash : BlobHash} {child : Tree} {cost : ℕ} (hfetch : FetchesTo taken fuel hash child)
    (hchild : Unfolds taken child cost) (path : FsPath) {u : Unpacking} {costs : List ℕ}
    (hu : u.Whole taken costs) :
    io.restoreChild get fuel path u hash = io.restoreChild get' fuel path u hash ∧
      (io.restoreChild get fuel path u hash = .error .ioError ∨
        ∃ u' costs', io.restoreChild get fuel path u hash = .ok u' ∧
          u'.Whole taken (costs ++ costs') ∧ costs'.sum ≤ cost) := by
  simp only [IoFaults.restoreChild, hfetch get hget, hfetch get' hget', true_and]
  cases hchild with
  | file _ _ hk hc hn =>
    refine .inr ⟨_, [], by rw [hk], ⟨?_, by simpa using hu.dirs⟩, by simp⟩
    intro x hx
    rcases List.mem_append.mp hx with hx | hx
    · exact hu.files x hx
    · obtain rfl := List.mem_singleton.mp hx
      exact hc
  | dir _ grandchild costOf _ hk hf hc hn =>
    rw [hk]
    dsimp only
    split
    · exact .inl rfl
    split
    · exact .inl rfl
    split
    · exact .inl rfl
    · refine .inr ⟨_, [cost], rfl, ⟨hu.files, ?_⟩, by simp⟩
      exact List.rel_append hu.dirs (.cons (.dir _ grandchild costOf _ hk hf hc hn) .nil)

/-- So are all children of a directory. -/
theorem restoreChildren_agree (io : IoFaults) (hget : HasTaken taken get)
    (hget' : HasTaken taken get') {hashes : List BlobHash} {child : BlobHash → Tree}
    {cost : BlobHash → ℕ} (hfetch : ∀ h ∈ hashes, FetchesTo taken fuel h (child h))
    (hchild : ∀ h ∈ hashes, Unfolds taken (child h) (cost h)) (path : FsPath) {u : Unpacking}
    {costs : List ℕ} (hu : u.Whole taken costs) :
    hashes.foldlM (io.restoreChild get fuel path) u
        = hashes.foldlM (io.restoreChild get' fuel path) u ∧
      (hashes.foldlM (io.restoreChild get fuel path) u = .error .ioError ∨
        ∃ u' costs', hashes.foldlM (io.restoreChild get fuel path) u = .ok u' ∧
          u'.Whole taken (costs ++ costs') ∧ costs'.sum ≤ (hashes.map cost).sum) := by
  induction hashes generalizing u costs with
  | nil => exact ⟨rfl, .inr ⟨u, [], rfl, by simpa using hu, by simp⟩⟩
  | cons hash hashes ih =>
    obtain ⟨heq, herr | ⟨u₁, costs₁, hok, hu₁, hle₁⟩⟩ := restoreChild_agree io hget hget'
      (hfetch hash List.mem_cons_self) (hchild hash List.mem_cons_self) path hu
    · simp only [List.foldlM_cons, ← heq, herr]
      exact ⟨rfl, .inl rfl⟩
    · obtain ⟨heq', hrest⟩ := ih (fun h hh => hfetch h (List.mem_cons_of_mem _ hh))
        (fun h hh => hchild h (List.mem_cons_of_mem _ hh)) hu₁
      simp only [List.foldlM_cons, ← heq, hok]
      refine ⟨heq', hrest.imp_right ?_⟩
      rintro ⟨u', costs', hok', hu', hle'⟩
      refine ⟨u', costs₁ ++ costs', hok', by rwa [← List.append_assoc], ?_⟩
      rw [List.sum_append, List.map_cons, List.sum_cons]
      exact Nat.add_le_add hle₁ hle'

/-! ## 3. The walk -/

/-- The queue is worked off, from any store in the same way. -/
theorem unpackLoop_agree (hget : HasTaken taken get) (hget' : HasTaken taken get')
    (hsched : ∀ l, (schedule l).Perm l) {rounds : ℕ} (hrounds : rounds ≤ fuel)
    {queue : List (Tree × FsPath)} {costs : List ℕ}
    (hqueue : List.Forall₂ (fun x n => Unfolds taken x.1 n) queue costs)
    (hcosts : costs.sum ≤ rounds) (d : Dest) :
    io.unpackLoop get schedule fuel rounds queue d
        = io.unpackLoop get' schedule fuel rounds queue d ∧
      ∀ e, io.unpackLoop get schedule fuel rounds queue d = .error e → e = .ioError := by
  induction rounds generalizing queue costs d with
  | zero =>
    cases hqueue with
    | nil => exact ⟨rfl, by simp [IoFaults.unpackLoop]⟩
    | cons hx _ =>
      have := hx.pos
      simp only [List.sum_cons] at hcosts
      omega
  | succ rounds ih =>
    have hle : rounds ≤ fuel := Nat.le_of_succ_le hrounds
    cases hqueue with
    | nil => exact ⟨rfl, by simp [IoFaults.unpackLoop]⟩
    | @cons x n queue costs hx hqueue =>
      obtain ⟨tree, path⟩ := x
      replace hx : Unfolds taken tree n := hx
      simp only [List.sum_cons] at hcosts
      have hpos := hx.pos
      cases hx with
      | file _ _ hk hc hn =>
        simp only [IoFaults.unpackLoop, hk]
        exact ih hle hqueue (by omega) d
      | dir _ child cost _ hk hf hc hn =>
        have hbound : ∀ h ∈ tree.children, cost h ≤ fuel := by
          intro h hh
          have hsum := List.le_sum_of_mem (List.mem_map_of_mem (f := cost) hh)
          omega
        obtain ⟨heq, herr | ⟨u, costs', hok, hu, hsum⟩⟩ := restoreChildren_agree io
          hget hget' (fun h hh => hf h hh fuel (hbound h hh)) hc path
          (u := ⟨d, [], []⟩) ⟨by simp, .nil⟩
        · simp only [IoFaults.unpackLoop, hk, ← heq, herr]
          exact ⟨trivial, fun e he => by simpa using he.symm⟩
        · have hfiles : (schedule u.files).foldl (io.restoreFile get) u.dest
              = (schedule u.files).foldl (io.restoreFile get') u.dest :=
            restoreFiles_agree io hget hget'
              (fun x hx => hu.files x ((hsched _).mem_iff.mp hx)) u.dest
          simp only [IoFaults.unpackLoop, hk, ← heq, hok, ← hfiles]
          refine ih hle (List.rel_append hqueue hu.dirs) ?_ _
          rw [List.nil_append, List.sum_append]
          omega

/-- From the hash of a whole tree every walk ends; only a failing call of the file system ends it
with an error, and it leaves the same from any store that has the blobs that were taken. -/
theorem Whole.unpacks {root : BlobHash} (h : Whole P taken root) (hget : HasTaken taken get)
    (hget' : HasTaken taken get') :
    ∃ n, ∀ fuel, n ≤ fuel → ∀ (io : IoFaults) (start : Dest)
      (schedule : List (Tree × FsPath) → List (Tree × FsPath)), (∀ l, (schedule l).Perm l) →
      io.unpack start get schedule fuel root = io.unpack start get' schedule fuel root ∧
        ∀ e, io.unpack start get schedule fuel root = .error e → e = .ioError := by
  obtain ⟨t, n, hunfolds, hfetch⟩ := h.unfolds
  refine ⟨n, ?_⟩
  intro fuel hfuel io start schedule hsched
  simp only [IoFaults.unpack, hfetch fuel hfuel get hget, hfetch fuel hfuel get' hget']
  split
  · exact ⟨rfl, fun e he => by simpa using he.symm⟩
  · exact unpackLoop_agree hget hget' hsched (le_refl fuel) (.cons hunfolds .nil) (by simpa) start

end

end Backuwup.Client
