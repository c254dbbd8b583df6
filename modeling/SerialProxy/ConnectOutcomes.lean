import SerialProxy.ConnectEffects

/-!
# What a connect attempt is worth

Whether an attempt gets as far as the registration is a function of the node
and of the results of the calls it makes, and so are the descriptors of its
link, the terminals it learns and the symbolic links it changes.
-/

namespace SerialProxy.ConnectOutcomes

open FaultPrograms LinkedCells CText SerialState EventTable SerialNodes SerialLinks NodeTopology
open LinkEffects LinkCoherence ConnectEffects

/-- The branch of the attempt that opens something succeeds. -/
def openWorks (n : SerialNode) (env : ConnectResults) : Bool :=
  if nodeIsMaster n then env.openPath.isOk
  else if nodeIsVirtual n then env.openpty.isOk && env.symlink.isNone
  else true

/-- The speed of the node can be set. -/
def speedWorks (n : SerialNode) (env : ConnectResults) : Bool :=
  if nodeIsMaster n then
    standardSpeeds.any (fun speed : ℕ => (speed : ℤ)=n.baudrate) ||
      (env.tiocgserial.isOk && env.tiocsserial.isNone)
  else true

/-- Every call before the registration succeeds. -/
def attemptWorks (n : SerialNode) (env : ConnectResults) : Bool :=
  openWorks n env && env.tcgetattr.isNone && speedWorks n env && env.tcsetattr.isNone

/-- The pty an attempt on a virtual opens. -/
def openedPty (n : SerialNode) (env : ConnectResults) : Option PtyPair :=
  if nodeIsMaster n then none
  else if nodeIsVirtual n then env.openpty.toOption
  else none

/-- The descriptor an attempt registers, when these are open before it. -/
def openedFd (fds : Finset Fd) (n : SerialNode) (env : ConnectResults) : Fd :=
  if nodeIsMaster n then (env.openPath.toOption.map fun alloc => alloc.choose fds).getD (-1)
  else ((openedPty n env).map fun pty => pty.master.choose fds).getD (-1)

/-- The slave side of the pty it opens. -/
def openedSfd (fds : Finset Fd) (n : SerialNode) (env : ConnectResults) : Fd :=
  ((openedPty n env).map fun pty => pty.slave.choose (insert (pty.master.choose fds) fds)).getD (-1)

/-- The terminals known behind an attempt. -/
def openedTtys (w : World) (n : SerialNode) (env : ConnectResults) : Fd → CString :=
  match openedPty n env with
  | some pty => Function.update w.ttys (openedSfd w.openFds n env) pty.tty
  | none => w.ttys

/-- The symbolic links behind a `remove` and a `symlink` of this path. -/
def placed (symlinks : CString → Option CString) (path target : CString) (env : ConnectResults) :
    CString → Option CString :=
  let removed := if env.remove.isNone then Function.update symlinks path none else symlinks
  if env.symlink.isNone then Function.update removed path (some target) else removed

/-- The symbolic links behind an attempt. -/
def openedSymlinks (w : World) (n : SerialNode) (env : ConnectResults) :
    CString → Option CString :=
  match openedPty n env with
  | some pty => placed w.symlinks n.name pty.tty env
  | none => w.symlinks

/-- Nodes, links and what an attempt leaves outside are the same. -/
structure Kept (w t : World) : Prop where
  /-- The nodes are the same. -/
  nodes : t.nodes=w.nodes
  /-- The links are the same. -/
  links : t.links=w.links
  /-- The same descriptors are open. -/
  openFds : t.openFds=w.openFds
  /-- The same terminals are known. -/
  ttys : t.ttys=w.ttys
  /-- The symbolic links are the same. -/
  symlinks : t.symlinks=w.symlinks
  /-- No node was attempted. -/
  attempts : attempts t.trace=attempts w.trace

/-- Nothing has changed at the start. -/
theorem Kept.refl (w : World) : Kept w w := ⟨rfl,rfl,rfl,rfl,rfl,rfl⟩

/-- Two parts that change nothing change nothing together. -/
theorem Kept.trans {w t u : World} (h : Kept w t) (h' : Kept t u) : Kept w u :=
  ⟨h'.nodes.trans h.nodes,h'.links.trans h.links,h'.openFds.trans h.openFds,
    h'.ttys.trans h.ttys,h'.symlinks.trans h.symlinks,h'.attempts.trans h.attempts⟩

/-- A program that always returns this value and keeps all of that. -/
def Yields {α : Type} (x : Prog α) (a : α) : Prop := ∀ w,∃ t,x w=.ok a t ∧ Kept w t

section Yields

variable {α β : Type} {x : Prog α} {a : α} {b : β}

/-- A value is returned at once. -/
theorem Yields.pure (a : α) : Yields (pure a : Prog α) a := fun w => ⟨w,rfl,.refl w⟩

/-- One part after another returns what the second returns for the result of the first. -/
theorem Yields.bind {f : α → Prog β} (hx : Yields x a) (hf : Yields (f a) b) :
    Yields (x >>= f) b := by
  intro w
  obtain ⟨t,hr,hk⟩ := hx w
  obtain ⟨u,hr',hk'⟩ := hf t
  exact ⟨u,by rw [bind_of_ok hr,hr'],hk.trans hk'⟩

/-- A recorded call that is no attempt returns. -/
theorem yields_emit (call : Call) (h : attemptOf call=none) : Yields (emit call) () := by
  refine fun w => ⟨{w with trace := w.trace++[call]},rfl,rfl,rfl,rfl,rfl,rfl,?_⟩
  rw [attempts_append]
  simp [attempts,h]

/-- So does a write to `errno`. -/
theorem yields_setErrno (errno : Errno) : Yields (setErrno errno) () :=
  fun _ => ⟨_,rfl,rfl,rfl,rfl,rfl,rfl,rfl⟩

/-- So does a message. -/
theorem yields_serverLogErrno (level : ℕ) (text : CString) :
    Yields (serverLogErrno level text) () :=
  fun w => yields_emit (.logErrno level text w.errno) rfl w

/-- A check tells whether its call succeeded. -/
theorem yields_sysCheck (result : Option Errno) (text : CString) :
    Yields (sysCheck result text) result.isNone := by
  cases result with
  | none => exact .pure true
  | some errno =>
    exact (yields_setErrno errno).bind ((yields_serverLogErrno _ _).bind (.pure false))

/-- `remove` changes the symbolic links only. -/
theorem sysRemove_kept (w : World) (path : CString) (result : Option Errno) :
    ∃ t,sysRemove path result w=.ok () t ∧ Kept {w with symlinks :=
      (if result.isNone then Function.update w.symlinks path none else w.symlinks)} t := by
  have hatt : attempts (w.trace++[.remove path])=attempts w.trace := by
    rw [attempts_append]
    exact List.append_nil _
  cases result with
  | none => exact ⟨_,rfl,rfl,rfl,rfl,rfl,rfl,hatt⟩
  | some errno => exact ⟨_,rfl,rfl,rfl,rfl,rfl,rfl,hatt⟩

/-- So does `symlink`, which returns whether it has worked. -/
theorem sysSymlink_kept (w : World) (target path : CString) (result : Option Errno) :
    ∃ t,sysSymlink target path result w=.ok result.isNone t ∧ Kept {w with symlinks :=
      (if result.isNone then Function.update w.symlinks path (some target) else w.symlinks)} t := by
  have hatt : attempts (w.trace++[.symlink target path])=attempts w.trace := by
    rw [attempts_append]
    exact List.append_nil _
  cases result with
  | none => exact ⟨_,rfl,rfl,rfl,rfl,rfl,rfl,hatt⟩
  | some errno =>
    obtain ⟨t,ht,hk⟩ := yields_sysCheck (some errno) "symlink".toList
      {w with trace := w.trace++[.symlink target path]}
    exact ⟨t,ht,hk.nodes,hk.links,hk.openFds,hk.ttys,hk.symlinks,hk.attempts.trans hatt⟩

/-- The path of a virtual is cleared, and then made a link to its terminal. -/
theorem placeSymlink_kept (w : World) (path : CString) (sfd : Fd) (env : ConnectResults) :
    ∃ t,(do
      sysRemove path env.remove
      let w ← get
      sysSymlink (w.ttys sfd) path env.symlink : Prog Bool) w=.ok env.symlink.isNone t ∧
      Kept {w with symlinks := placed w.symlinks path (w.ttys sfd) env} t := by
  obtain ⟨s,hs,hk⟩ := sysRemove_kept w path env.remove
  obtain ⟨t,ht,hk'⟩ := sysSymlink_kept s (s.ttys sfd) path env.symlink
  refine ⟨t,by rw [bind_of_ok hs,bind_of_ok (get_apply s),ht],hk'.nodes.trans hk.nodes,
    hk'.links.trans hk.links,hk'.openFds.trans hk.openFds,hk'.ttys.trans hk.ttys,?_,
    hk'.attempts.trans hk.attempts⟩
  have hsym := hk'.symlinks
  have htty : s.ttys=w.ttys := hk.ttys
  dsimp only at hsym
  rw [hsym,hk.symlinks,htty]
  rfl

end Yields

/-- The state behind the opening branches of an attempt that started in `w`. -/
structure Opened (w : World) (node : NodePtr) (n : SerialNode) (env : ConnectResults)
    (link : LinkPtr) (ok : Bool) (t : World) : Prop where
  /-- The nodes are the same. -/
  nodes : t.nodes=w.nodes
  /-- The slave side of a new pty has its terminal. -/
  ttys : t.ttys=openedTtys w n env
  /-- The path of a virtual may lead to it. -/
  symlinks : t.symlinks=openedSymlinks w n env
  /-- The node was attempted. -/
  attempts : attempts t.trace=attempts w.trace++[node]
  /-- The link has its descriptors, if the attempt goes on. -/
  link : ∃ l,t.links link=some l ∧
    (ok=true → l.fd=openedFd w.openFds n env ∧ l.sfd=openedSfd w.openFds n env)

section Attempt

variable {w t u : World} {node : NodePtr} {n : SerialNode} {env : ConnectResults} {link : LinkPtr}
variable {l : SerialLink} {ok : Bool}

/-- What the opening branches leave is still there behind a part that changes nothing else. -/
theorem Opened.kept (h : Opened w node n env link ok t) (hk : Kept t u) :
    Opened w node n env link ok u where
  nodes := hk.nodes.trans h.nodes
  ttys := hk.ttys.trans h.ttys
  symlinks := hk.symlinks.trans h.symlinks
  attempts := hk.attempts.trans h.attempts
  link := by rw [hk.links]; exact h.link

/-- It is there too when the attempt fails later. -/
theorem Opened.fail (h : Opened w node n env link ok t) : Opened w node n env link false t :=
  {h with link := let ⟨l,hl,_⟩ := h.link; ⟨l,hl,fun h => Bool.noConfusion h⟩}

/-- A master opens its device. -/
theorem serialOpenLink_opens_master (hn : w.nodes node=some n) (hl : w.links link=some l)
    (hsfd : l.sfd=-1) (hm : nodeIsMaster n=true) :
    ∃ t,serialOpenLink node link env w=.ok (openWorks n env) t ∧
      Opened w node n env link (openWorks n env) t := by
  have hpty : openedPty n env=none := by rw [openedPty,if_pos hm]
  have hworks : openWorks n env=env.openPath.isOk := by rw [openWorks,if_pos hm]
  have hsides : openedSfd w.openFds n env=-1 := by
    rw [openedSfd,hpty]
    rfl
  have hsame : ∀ t : World,t.nodes=w.nodes → t.ttys=w.ttys → t.symlinks=w.symlinks →
      attempts t.trace=attempts w.trace++[node] → (∃ l,t.links link=some l ∧
        (openWorks n env=true → l.fd=openedFd w.openFds n env ∧ l.sfd=-1)) →
      Opened w node n env link (openWorks n env) t := fun t hnodes htty hsym hatt hlink =>
    ⟨hnodes,by rw [htty,openedTtys,hpty],by rw [hsym,openedSymlinks,hpty],hatt,
      by rw [hsides]; exact hlink⟩
  rw [serialOpenLink,bind_of_ok (derefNode_of_some hn),if_pos hm,bind_of_ok (show
    emit (.openPath node n.name) w=.ok () {w with trace := w.trace++[.openPath node n.name]} from rfl)]
  have hatt : attempts (w.trace++[.openPath node n.name])=attempts w.trace++[node] :=
    attempts_append _ _
  cases hopen : env.openPath with
  | error errno =>
    have hfail : openWorks n env=false := by rw [hworks,hopen]; rfl
    obtain ⟨t,ht,hk⟩ := yields_sysCheck (some errno) "open".toList
      {w with trace := w.trace++[.openPath node n.name]}
    refine ⟨t,by rw [hfail]; exact ht,hsame t hk.nodes hk.ttys hk.symlinks
      (hk.attempts.trans hatt) ⟨l,by rw [hk.links]; exact hl,fun h => ?_⟩⟩
    rw [hfail] at h
    exact Bool.noConfusion h
  | ok alloc =>
    have hok : openWorks n env=true := by rw [hworks,hopen]; rfl
    have hfd : openedFd w.openFds n env=alloc.choose w.openFds := by
      rw [openedFd,if_pos hm,hopen]
      rfl
    dsimp only
    rw [bind_of_ok (sysOpenFd_apply _ _),bind_of_ok (modifyLink_of_some (l:=l) ?_ _),hok]
    · rw [hok] at hsame
      cases env.isatty with
      | none =>
        exact ⟨_,rfl,hsame _ rfl rfl rfl hatt ⟨_,Function.update_self _ _ _,fun _ =>
          ⟨hfd.symm,hsfd⟩⟩⟩
      | some errno =>
        exact ⟨_,rfl,hsame _ rfl rfl rfl hatt ⟨_,Function.update_self _ _ _,fun _ =>
          ⟨hfd.symm,hsfd⟩⟩⟩
    · exact hl

/-- The slave side of a new terminal is the second descriptor the kernel hands out. -/
theorem openedSfd_of_pty {pty : PtyPair} (fds : Finset Fd) (h : openedPty n env=some pty) :
    openedSfd fds n env=pty.slave.choose (insert (pty.master.choose fds) fds) := by
  rw [openedSfd,h]
  rfl

/-- A virtual opens a pty and puts a link to it at its path. -/
theorem serialOpenLink_opens_virtual (hn : w.nodes node=some n) (hl : w.links link=some l)
    (hm : nodeIsMaster n=false) (hv : nodeIsVirtual n=true) :
    ∃ t,serialOpenLink node link env w=.ok (openWorks n env) t ∧
      Opened w node n env link (openWorks n env) t := by
  have hne : ¬ nodeIsMaster n=true := by rw [hm]; exact Bool.false_ne_true
  have hpty : openedPty n env=env.openpty.toOption := by rw [openedPty,if_neg hne,if_pos hv]
  have hworks : openWorks n env=(env.openpty.isOk && env.symlink.isNone) := by
    rw [openWorks,if_neg hne,if_pos hv]
  have hfd : openedFd w.openFds n env=((env.openpty.toOption).map fun pty =>
      pty.master.choose w.openFds).getD (-1) := by rw [openedFd,if_neg hne,hpty]
  rw [serialOpenLink,bind_of_ok (derefNode_of_some hn),if_neg hne,if_pos hv,bind_of_ok (show
    emit (.openpty node) w=.ok () {w with trace := w.trace++[.openpty node]} from rfl)]
  have hatt : attempts (w.trace++[.openpty node])=attempts w.trace++[node] := attempts_append _ _
  cases hopen : env.openpty with
  | error errno =>
    rw [hopen] at hpty
    have hfail : openWorks n env=false := by rw [hworks,hopen]; rfl
    obtain ⟨t,ht,hk⟩ := yields_sysCheck (some errno) "openpty".toList
      {w with trace := w.trace++[.openpty node]}
    refine ⟨t,by rw [hfail]; exact ht,hk.nodes,?_,?_,hk.attempts.trans hatt,l,?_,fun h => ?_⟩
    · rw [hk.ttys,openedTtys,hpty]
      rfl
    · rw [hk.symlinks,openedSymlinks,hpty]
      rfl
    · rw [hk.links]
      exact hl
    · rw [hfail] at h
      exact Bool.noConfusion h
  | ok pty =>
    rw [hopen] at hpty hfd
    have hsfd := openedSfd_of_pty w.openFds (hpty.trans rfl)
    have hok : openWorks n env=env.symlink.isNone := by rw [hworks,hopen]; rfl
    dsimp only
    rw [bind_of_ok (sysOpenFd_apply _ _),bind_of_ok (sysOpenFd_apply _ _),
      bind_of_ok (modify_apply _ _),bind_of_ok (modifyLink_of_some (l:=l) ?_ _)]
    · obtain ⟨t,ht,hk⟩ := placeSymlink_kept {w with
        openFds := insert (pty.slave.choose (insert (pty.master.choose w.openFds) w.openFds))
          (insert (pty.master.choose w.openFds) w.openFds)
        links := Function.update w.links link (some {l with
          fd := pty.master.choose w.openFds
          sfd := pty.slave.choose (insert (pty.master.choose w.openFds) w.openFds)})
        ttys := Function.update w.ttys
          (pty.slave.choose (insert (pty.master.choose w.openFds) w.openFds)) pty.tty
        trace := w.trace++[.openpty node]
        fdCalls := w.fdCalls++[.opened (pty.master.choose w.openFds)]++
          [.opened (pty.slave.choose (insert (pty.master.choose w.openFds) w.openFds))]} n.name
        (pty.slave.choose (insert (pty.master.choose w.openFds) w.openFds)) env
      have hlink : t.links link=some {l with
          fd := pty.master.choose w.openFds
          sfd := pty.slave.choose (insert (pty.master.choose w.openFds) w.openFds)} := by
        rw [hk.links]
        exact Function.update_self _ _ _
      refine ⟨t,by rw [hok]; exact ht,hk.nodes,?_,?_,hk.attempts.trans hatt,_,hlink,
        fun _ => ⟨hfd.symm,hsfd.symm⟩⟩
      · rw [hk.ttys,openedTtys,hpty,hsfd]
        rfl
      · rw [hk.symlinks,openedSymlinks,hpty]
        dsimp only [Except.toOption]
        rw [Function.update_self]
    · exact hl

/-- Setting the speed of a device. -/
theorem serialSetSpeed_yields (h : Opened w node n env link ok t) (hn : w.nodes node=some n) :
    ∃ u,serialSetSpeed node link env t=.ok (speedWorks n env) u ∧ Kept t u := by
  obtain ⟨l,hl,-⟩ := h.link
  rw [← h.nodes] at hn
  rw [serialSetSpeed,bind_of_ok (derefNode_of_some hn),speedWorks]
  by_cases hm : nodeIsMaster n
  · rw [if_pos hm,if_pos hm,bind_of_ok (derefLink_of_some hl)]
    cases hs : standardSpeeds.find? (fun speed : ℕ => (speed : ℤ)=n.baudrate) with
    | some speed =>
      have heq := List.find?_some hs
      have hany : standardSpeeds.any (fun speed : ℕ => (speed : ℤ)=n.baudrate)=true :=
        List.any_eq_true.mpr ⟨speed,List.mem_of_find?_eq_some hs,heq⟩
      rw [hany,Bool.true_or]
      exact ((yields_emit (.setSpeed l.fd speed) rfl).bind (.pure true)) t
    | none =>
      have hany : standardSpeeds.any (fun speed : ℕ => (speed : ℤ)=n.baudrate)=false :=
        List.any_eq_false.mpr (List.find?_eq_none.mp hs)
      rw [hany,Bool.false_or]
      cases env.tiocgserial with
      | error errno => exact ((yields_setErrno errno).bind (.pure false)) t
      | ok baudBase =>
        dsimp only
        rw [if_neg (standardSpeeds_none hs)]
        exact ((yields_emit (.setDivisor l.fd (baudBase.tdiv n.baudrate)) rfl).bind
          (yields_sysCheck env.tiocsserial "ioctl".toList)) t
  · rw [if_neg hm,if_neg hm]
    exact ⟨t,rfl,.refl t⟩

/-- An attempt up to the registration. -/
theorem serialConfigureLink_opens (hn : w.nodes node=some n) (hl : w.links link=some l)
    (hsfd : l.sfd=-1) (hkind : nodeIsMaster n=true ∨ nodeIsVirtual n=true) :
    ∃ t,serialConfigureLink node link env w=.ok (attemptWorks n env) t ∧
      Opened w node n env link (attemptWorks n env) t := by
  obtain ⟨s,hs,ho⟩ : ∃ s,serialOpenLink node link env w=.ok (openWorks n env) s ∧
      Opened w node n env link (openWorks n env) s := by
    cases hm : nodeIsMaster n with
    | true => exact serialOpenLink_opens_master hn hl hsfd hm
    | false => exact serialOpenLink_opens_virtual hn hl hm (hkind.resolve_left (by simp [hm]))
  rw [serialConfigureLink,bind_of_ok hs,attemptWorks]
  cases hopen : openWorks n env with
  | false => exact ⟨s,rfl,ho.fail⟩
  | true =>
    rw [hopen] at ho
    obtain ⟨t,ht,hk⟩ := yields_sysCheck env.tcgetattr "tcgetattr".toList s
    have hot := ho.kept hk
    rw [if_pos rfl,bind_of_ok ht,Bool.true_and]
    cases env.tcgetattr with
    | some errno => exact ⟨t,rfl,hot.fail⟩
    | none =>
      obtain ⟨u,hu,hk'⟩ := serialSetSpeed_yields hot hn
      have hou := hot.kept hk'
      rw [Option.isNone_none,if_pos rfl,bind_of_ok hu,Bool.true_and]
      cases speedWorks n env with
      | false => exact ⟨u,rfl,hou.fail⟩
      | true =>
        obtain ⟨v,hv,hk''⟩ := yields_sysCheck env.tcsetattr "tcsetattr".toList u
        rw [if_pos rfl,Bool.true_and]
        refine ⟨v,hv,?_⟩
        cases env.tcsetattr with
        | none => exact hou.kept hk''
        | some errno => exact (hou.kept hk'').fail

/-- The whole attempt: the value it returns, and what it leaves outside the heap. -/
structure Outcome (w : World) (node : NodePtr) (n : SerialNode) (env : ConnectResults)
    (t : World) : Prop where
  /-- The slave side of a new pty has its terminal. -/
  ttys : t.ttys=openedTtys w n env
  /-- The path of a virtual may lead to it. -/
  symlinks : t.symlinks=openedSymlinks w n env
  /-- The node was attempted. -/
  attempts : attempts t.trace=attempts w.trace++[node]
  /-- The link has its descriptors, if the attempt succeeded. -/
  link : attemptWorks n env=true → ∃ l,t.links w.nextLink=some l ∧
    l.fd=openedFd w.openFds n env ∧ l.sfd=openedSfd w.openFds n env
  /-- Nothing is registered when the registration fails. -/
  unregistered : ¬ (openedFd w.openFds n env<w.setsize ∧ env.epollCtl=none) → t.events=w.events

/-- What the rest of the attempt keeps belongs to its outcome. -/
theorem Opened.outcome {s u : World} (h : Opened s node n env w.nextLink (attemptWorks n env) t)
    (hs : s={w with links := s.links, nextLink := s.nextLink}) (ho : SameFiles t u)
    (hlink : attemptWorks n env=true → ∃ l',u.links w.nextLink=some l' ∧
      ∃ l,t.links w.nextLink=some l ∧ l'.fd=l.fd ∧ l'.sfd=l.sfd)
    (hevents : ¬ (openedFd w.openFds n env<w.setsize ∧ env.epollCtl=none) → u.events=w.events) :
    Outcome w node n env u := by
  rw [hs] at h
  refine ⟨ho.ttys.trans h.ttys,ho.symlinks.trans h.symlinks,ho.attempts.trans h.attempts,
    fun hw => ?_,hevents⟩
  obtain ⟨l',hl',l,hl,hfd,hsfd⟩ := hlink hw
  obtain ⟨l₀,hl₀,hopen⟩ := h.link
  rw [hl,Option.some.injEq] at hl₀
  subst hl₀
  exact ⟨l',hl',hfd.trans (hopen hw).1,hsfd.trans (hopen hw).2⟩

/-- What one connect attempt returns and leaves behind. -/
theorem serialCreateLink_outcome {shape : Shape} (env : ConnectResults) (ht : Topology w shape)
    (hm : shape.Mem node) (hnew : w.links w.nextLink=none) (hn : w.nodes node=some n) :
    ∃ u,Outcome w node n env u ∧
      if attemptWorks n env then
        serialCreateLink node env w=.ok (some w.nextLink) u ∧ ∃ l,Connected w node env l u
      else serialCreateLink node env w=.ok none u ∧ Abandoned w u := by
  have hkind : nodeIsMaster n=true ∨ nodeIsVirtual n=true := by
    obtain ⟨g,hg,rfl|hv⟩ := hm
    · obtain ⟨m,hm,hf,-⟩ := ht.master g hg
      rw [hn,Option.some.injEq] at hm
      exact .inl (hm ▸ nodeIsMaster_of_flags hf)
    · obtain ⟨v,hv,hf,-⟩ := ht.virtual g hg node hv
      rw [hn,Option.some.injEq] at hv
      exact .inr (hv ▸ nodeIsVirtual_of_flags hf)
  obtain ⟨s,hcalloc,hstart⟩ := Pending.start w
  have hs : s={w with links := s.links, nextLink := s.nextLink} := by
    rw [callocLink] at hcalloc
    cases hcalloc
    rfl
  obtain ⟨t,hx,hopened⟩ := serialConfigureLink_opens (hstart.nodes ▸ hn) hstart.live rfl
    hkind
  obtain ⟨l,hp,ho⟩ := (serialConfigureLink_rule env ht hm rfl rfl).of_ok hstart hx
  simp only [serialCreateLink,bind_of_ok hcalloc,bind_of_ok hx]
  cases hw : attemptWorks n env with
  | false =>
    obtain ⟨u,hu,ha,hout⟩ := hp.abandon hnew
    refine ⟨u,hopened.outcome hs hout (fun h => ?_) fun _ => ha.events,?_⟩
    · rw [hw] at h
      exact Bool.noConfusion h
    · rw [if_neg Bool.false_ne_true,if_neg Bool.false_ne_true,bind_of_ok hu]
      exact ⟨rfl,ha⟩
  | true =>
    obtain ⟨u,hu,hc,hout,hevents⟩ := hp.attach env ht hm (ho hw)
    have hfd : l.fd=openedFd w.openFds n env := by
      obtain ⟨l₀,hl₀,hopen⟩ := hopened.link
      rw [hp.live,Option.some.injEq] at hl₀
      rw [hl₀,(hopen hw).1,hs]
    have hlink : u.links w.nextLink=some {l with node := some node} := by
      rw [hc.links,Function.update_self]
    refine ⟨u,hopened.outcome hs hout (fun _ => ⟨_,hlink,l,hp.live,rfl,rfl⟩) (hfd ▸ hevents),?_⟩
    rw [if_pos rfl,if_pos rfl]
    exact ⟨hu,_,hc⟩

end Attempt

end SerialProxy.ConnectOutcomes
