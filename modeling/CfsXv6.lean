import CfsXv6.Lib.LinkedTree
import CfsXv6.Spec.Proc
import CfsXv6.Spec.RbTree
import CfsXv6.Proofs.Links
import CfsXv6.Proofs.InsertFixup
import CfsXv6.Lib.SortedQueue
import CfsXv6.Proofs.Insert
import CfsXv6.Proofs.DeleteFixup
import CfsXv6.Proofs.Delete
import CfsXv6.Proofs.RunQueue
import CfsXv6.Lib.MachineInt
import CfsXv6.Spec.Queue
import CfsXv6.Proofs.Refinement
import CfsXv6.Lib.RedBlack
import CfsXv6.Proofs.Balance
import CfsXv6.Spec.Kernel
import CfsXv6.Lib.Loop
import CfsXv6.Proofs.Wakeup
import CfsXv6.Proofs.Sched
import CfsXv6.Proofs.Policy
import CfsXv6.Lib.Spread
import CfsXv6.Proofs.Fairness
import CfsXv6.Proofs.Lifecycle
import CfsXv6.Spec.Vm
import CfsXv6.Proofs.Growproc
import CfsXv6.Proofs.Runtime
import CfsXv6.Lib.DList
import CfsXv6.Spec.Bio
import CfsXv6.Proofs.Bio
import CfsXv6.Lib.Bytes
import CfsXv6.Spec.Fs
import CfsXv6.Spec.Mkfs
import CfsXv6.Proofs.Mkfs
import CfsXv6.Proofs.Iappend
import CfsXv6.Lib.Bump
import CfsXv6.Proofs.Image
import CfsXv6.Proofs.Build
import CfsXv6.Proofs.Readi
import CfsXv6.Proofs.RootDir
import CfsXv6.Lib.Bitmap
import CfsXv6.Spec.Inode
import CfsXv6.Proofs.Mp
import CfsXv6.Proofs.Memmove
import CfsXv6.Proofs.Grep
import CfsXv6.Proofs.Umalloc
import CfsXv6.Proofs.Path
import CfsXv6.Proofs.Console
import CfsXv6.Proofs.Discipline
import CfsXv6.Spec.Sh
import CfsXv6.Proofs.Sh
import CfsXv6.Spec.Log
import CfsXv6.Proofs.LogBudget
import CfsXv6.Proofs.Rotation
import CfsXv6.Lib.Splice
import CfsXv6.Proofs.FreeMap
import CfsXv6.Proofs.Writei
import CfsXv6.Lib.Assoc
import CfsXv6.Spec.Transaction
import CfsXv6.Proofs.Admission
import CfsXv6.Spec.Pipe
import CfsXv6.Proofs.Pipe
import CfsXv6.Lib.Crash
import CfsXv6.Spec.LogDisk
import CfsXv6.Proofs.Atomicity
import CfsXv6.Lib.Exit
import CfsXv6.Spec.Exec
import CfsXv6.Proofs.Exec
import CfsXv6.Lib.Machine
import CfsXv6.Spec.Spinlock
import CfsXv6.Proofs.Spinlock
import CfsXv6.Lib.SList
import CfsXv6.Spec.Kalloc
import CfsXv6.Proofs.Kalloc
import CfsXv6.Lib.Tally
import CfsXv6.Spec.File
import CfsXv6.Proofs.File
import CfsXv6.Spec.Ide
import CfsXv6.Proofs.Ide
import CfsXv6.Spec.Syscall
import CfsXv6.Proofs.Syscall
import CfsXv6.Spec.Ulib
import CfsXv6.Spec.Wc
import CfsXv6.Proofs.Wc
import CfsXv6.Spec.Printf
import CfsXv6.Proofs.Printf
