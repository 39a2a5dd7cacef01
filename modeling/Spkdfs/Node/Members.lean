import Spkdfs.Node.Change
import Spkdfs.Node.Spared

namespace Spkdfs

open Library RocksDB

namespace Leader

variable {l l' : Leader} {during : List Action}

/-- The refresh of the lock of another path. -/
theorem spares_updateLock {path other : Str} (hne : simplifyPath other ≠ path) :
    (Request.updateLock [other]).Spares path := by
  intro db env entry hentry
  obtain ⟨is, his, hall⟩ := Namenode.updateLock_eq db env.now [other]
  rw [Namenode.prepare, his] at hentry
  obtain ⟨i, hi, rfl⟩ := List.mem_map.mp hentry
  obtain ⟨q, hq, j, hj, -, rfl⟩ := hall i hi
  obtain rfl := List.mem_singleton.mp hq
  show (j.updateDdlLock env.now).fullpath.str ≠ path
  rw [← fullpath_of_lookup hj] at hne
  exact hne

section

variable {path storageType : Str} {storage : StorageType} {entry : Entry} {j : Inode}
  (hpending : ∀ q ∈ l.pending, q.entry.Spares path) (hduring : ∀ a ∈ during, a.Spares path)

include hpending hduring

/-- A `put_batch` makes the inode of each of its paths a file that has the storage type. -/
theorem rpc_putBatch_spared {reqs : List NNPutRequest}
    (hstorage : StorageType.fromString storageType = .ok storage)
    (hall : ∀ req ∈ reqs, req.storageType = storageType)
    (hpath : ∃ req ∈ reqs, simplifyPath req.path = path)
    (h : l.rpc (.putBatch reqs) during = some (.ok entry, l')) :
    (∃ f, getInode l.store (.ofPath path) = .ok f ∧ lookup l'.store path =
      some { f with
        isDirectory := false
        valid := true
        ddlLock := l.now + lockRefreshInterval
        storageType := some storage }) ∧
      ∀ q ∈ l'.pending, q.entry.Spares path := by
  cases hput : Namenode.putBatch l.store l.now reqs with
  | error fault => simp [rpc, step, Namenode.prepare, Namenode.proposed, hput, env] at h
  | ok es =>
    obtain ⟨is, hmembers, rfl⟩ := Namenode.putBatch_eq_ok.mp hput
    obtain ⟨db, db', -, happly, hkept, hrest⟩ := rpc_spared hpending hduring
      (by simp [Namenode.prepare, Namenode.proposed, hput, env]; rfl) h
    refine ⟨?_, hrest⟩
    have hown : ∀ req ∈ reqs, ∀ i, Namenode.putInode l.store l.now req = .ok i →
        i.fullpath.str = simplifyPath req.path ∧ (simplifyPath req.path = path →
          ∃ f, getInode l.store (.ofPath path) = .ok f ∧ i =
            { f with
              isDirectory := false
              valid := true
              ddlLock := l.now + lockRefreshInterval
              storageType := some storage }) := by
      intro req hreq i hi
      obtain ⟨-, f, hf, found, hfound, rfl⟩ := Namenode.putInode_eq_ok.mp hi
      obtain ⟨g, hg, -, -, rfl⟩ := preparePut_eq_ok.mp hf
      rw [hall req hreq, hstorage] at hfound
      obtain rfl := Except.ok.inj hfound
      refine ⟨congrArg FullPath.str (fullpath_of_getInode hg), ?_⟩
      rintro rfl
      refine ⟨g, ?_, rfl⟩
      have hsame : Inode.ofPath (simplifyPath req.path) = .ofPath req.path :=
        congrArg (fun p : FullPath ↦ ({ fullpath := p } : Inode)) (FullPath.ext (simplifyPath_idem req.path))
      rw [hsame, hg]
    rw [lookup, hkept, ← lookup, ← Except.ok.inj happly]
    rcases lookup_write_cases db is path with ⟨i, hi, hip, hl⟩ | ⟨hno, -⟩
    · obtain ⟨req, hreq, hri⟩ := forall₂_mem_right hmembers hi
      obtain ⟨hfull, hrecord⟩ := hown req hreq i hri
      obtain ⟨f, hf, rfl⟩ := hrecord (hfull.symm.trans hip)
      exact ⟨f, hf, hl⟩
    · obtain ⟨req, hreq, hsame⟩ := hpath
      obtain ⟨i, hi, hri⟩ := forall₂_mem_left hmembers hreq
      exact absurd ((hown req hreq i hri).1.trans hsame) (hno i hi)

/-- The first of the two entries of a `put_ok_batch`. The id of the aggregate is no path. -/
theorem rpc_putOkBatch {reqs : List NNPutOKRequest} (hslash : '/' ∈ path)
    (h : l.rpc (.putOkBatch reqs) during = some (.ok entry, l')) :
    ∃ (is : List Inode) (agg : AggInode),
      Namenode.putOkBatch l.store (l.env 0) reqs = .ok [.opPutOkBatch is, .opPutAgg agg] ∧
      List.Forall₂ (fun r i ↦ ∃ k, Namenode.putOkInode l.store r = .ok k ∧
        i = { k with aggInodeId := agg.id }) reqs is ∧ agg.id ≠ [] ∧
      ∃ db db', db.find path = l.store.find path ∧ internalPutOkBatch db is = .ok db' ∧
        l'.store.find path = db'.find path ∧ ∀ q ∈ l'.pending, q.entry.Spares path := by
  cases hput : Namenode.putOkBatch l.store (l.env 0) reqs with
  | error fault => simp [rpc, step, Namenode.prepare, Namenode.proposed, hput] at h
  | ok es =>
    obtain ⟨is, agg, hmembers, hplain, rfl⟩ := Namenode.putOkBatch_ok hput
    have hid := Namenode.putOkBatch_id_ne_nil hput
    have hmore : ∀ x ∈ [Entry.opPutAgg agg], x.Spares path := by
      intro x hx
      obtain rfl := List.mem_singleton.mp hx
      rintro rfl
      exact hplain hslash
    obtain ⟨db, db', hsame, happly, hkept, hrest⟩ := rpc_spared_cons hpending hduring hmore
      (by simp [Namenode.prepare, Namenode.proposed, hput]; rfl) h
    exact ⟨is, agg, rfl, hmembers, hid, db, db', hsame, happly, hkept, hrest⟩

/-- A `put_ok_batch` gives a file what the last request for it says. -/
theorem rpc_putOkBatch_spared {reqs : List NNPutOKRequest} {req : NNPutOKRequest}
    (hslash : '/' ∈ path) (hl : lookup l.store path = some j)
    (hlast : (reqs.filter fun r ↦ simplifyPath r.path = path).getLast? = some req)
    (hflat : ∀ r ∈ reqs, getParentPath (simplifyPath r.path) ≠ path)
    (h : l.rpc (.putOkBatch reqs) during = some (.ok entry, l')) :
    (∃ id, id ≠ [] ∧ lookup l'.store path = some { j with
      ddlLock := 0, sub := req.sub, filesize := req.filesize, aggInodeId := id }) ∧
      ∀ q ∈ l'.pending, q.entry.Spares path := by
  obtain ⟨is, agg, hbatch, hmembers, hid, db, db', hsame, happly, hkept, hrest⟩ :=
    rpc_putOkBatch hpending hduring hslash h
  refine ⟨⟨agg.id, hid, ?_⟩, hrest⟩
  have hdb : lookup db path = some j := by rw [lookup, hsame, ← lookup, hl]
  obtain ⟨-, hno⟩ | ⟨r, i, hr, hi, j', hj', rfl⟩ := forall₂_last hmembers
    (fun r i hri ↦ (putOk_member hri).1) path
  · obtain ⟨hmem, hpath⟩ := of_getLast?_filter hlast
    exact absurd (List.mem_map.mpr ⟨req, hmem, hpath⟩) hno
  obtain rfl := Option.some.inj (hlast.symm.trans hr)
  obtain ⟨hmem, hpath⟩ := of_getLast?_filter hi
  have hparent : ∀ k ∈ is, k.parentPath ≠ path := by
    intro k hk
    obtain ⟨r, hr, hrk⟩ := forall₂_mem_right hmembers hk
    rw [Inode.parentPath, (putOk_member hrk).1]
    exact hflat r hr
  obtain ⟨last, hlast', c, hc, hstored⟩ := (internalPutOkBatch_ok happly).member _ hmem
    (by rw [hpath]; exact hparent)
  rw [← filter_fullpath_str, hpath] at hlast'
  obtain rfl := Option.some.inj (hi.symm.trans hlast')
  rw [hpath] at hstored
  rw [lookup, hkept, ← lookup, hstored,
    commitAgg_of_lookup (j := j) (by rw [hpath, hdb]) hid hc]
  obtain ⟨-, f, -, rfl⟩ := Namenode.putOkInode_eq_ok.mp hj'
  rfl

/-- The directory of a file of the batch only gets more names. -/
theorem rpc_putOkBatch_directory {reqs : List NNPutOKRequest} {req : NNPutOKRequest}
    (hslash : '/' ∈ path) (hl : lookup l.store path = some j) (hreq : req ∈ reqs)
    (hparent : getParentPath (simplifyPath req.path) = path)
    (h : l.rpc (.putOkBatch reqs) during = some (.ok entry, l')) :
    ∃ sub, lookup l'.store path = some { j with sub := sub } := by
  obtain ⟨is, agg, hbatch, hmembers, hid, db, db', hsame, happly, hkept, -⟩ :=
    rpc_putOkBatch hpending hduring hslash h
  obtain ⟨i, hi, hri⟩ := forall₂_mem_left hmembers hreq
  have hpath : i.parentPath = path := by rw [Inode.parentPath, (putOk_member hri).1, hparent]
  obtain ⟨p, hp, hp'⟩ := (internalPutOkBatch_ok happly).parent i hi
  rw [hpath, lookup, hsame, ← lookup, hl] at hp
  obtain rfl := Option.some.inj hp
  rw [hpath] at hp'
  exact ⟨_, by rw [lookup, hkept, ← lookup, hp']⟩

end

end Leader

end Spkdfs
