import Cobalt.Json.SerializeTheorems
import Cobalt.Json.StringAgree
import Cobalt.Json.Query
import Cobalt.Pool.WaitGroupTheorems
import Cobalt.Pool.DrainTheorems
import Cobalt.Pool.ParallelForTheorems
import Cobalt.Container.BoundedQueueTheorems
import Cobalt.Container.SpscDrained
import Cobalt.Container.ShmRegionTheorems
import Cobalt.Channel.ShmChannelTheorems
import Cobalt.Container.MapIterator
import Cobalt.Container.LfHashMapTheorems
import Cobalt.Pool.DequeTheorems
import Cobalt.Container.BinaryKeys
import Cobalt.Container.Capacity
import Cobalt.Container.GuardsTheorems
import Cobalt.Container.UnlinkingTheorems
import Cobalt.Container.LfHashMapEntryTheorems
import Cobalt.Container.LfSkipListTheorems
import Cobalt.Memory.ArenaTheorems
import Cobalt.Memory.SlabTheorems
import Cobalt.Container.VectorTheorems
import Cobalt.Container.StreamBufferTheorems
import Cobalt.EventLoop.PostTheorems
import Cobalt.TaskGraph.RunTheorems
import Cobalt.Container.LinkedListTheorems
import Cobalt.Sort.ParallelQsortTheorems
import Cobalt.Sort.ParallelStableSortTheorems
import Cobalt.Sort.StableSortTheorems
import Cobalt.Sort.Layers
import Cobalt.EventLoop.Registrations
import Cobalt.Algorithm.Filter
import Cobalt.Memory.SlabCreate
