import ModernCli.Dictionary.Heap
import ModernCli.Dictionary.Basic
import ModernCli.Dictionary.Stacks
import ModernCli.Dictionary.Representation
import ModernCli.Dictionary.Calls
import ModernCli.Dictionary.Refinement
import ModernCli.Dictionary.TryEmplace
import ModernCli.Dictionary.SharedHeap
import ModernCli.Dictionary.Concurrent
import ModernCli.Dictionary.ConcurrentInsert
import ModernCli.Dictionary.ConcurrentShape
import ModernCli.Dictionary.ConcurrentDedup
import ModernCli.Dictionary.SingleThread
import ModernCli.Atomic.Stack
import ModernCli.Atomic.StackThreads
import ModernCli.Atomic.Buffer
import ModernCli.Atomic.Sequence
import ModernCli.Atomic.Ref
import ModernCli.Slice
import ModernCli.Fsys.Fd
import ModernCli.Crypto.Cipher
import ModernCli.Crypto.Keyphrase
import ModernCli.Crypto.Program
import ModernCli.Slice.Alias
import ModernCli.Fsys.Getline
import ModernCli.Fsys.Scan
import ModernCli.Args.Parse
import ModernCli.Args.Section
import ModernCli.Args.Help
import ModernCli.Args.Defaults
import ModernCli.Logger
